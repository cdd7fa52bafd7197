import Mathlib.Logic.Relation
import Diem.Theory.Monads
import Diem.Vm.ParallelExecutor.Scheduler

/-!
# The parallel executor

`execute_transactions_parallel` of
`language/diem-vm/parallel-executor/src/executor.rs` infers the read and write
set of every transaction, builds the multi-version map from the write sets,
starts `compute_cpus` workers and, once they have all stopped, collects the
results of the versions below `stop_at_version`.

A worker is its program counter (`Pc`), one constructor per point of its loop
between two accesses of the shared state, and `workerStep` is its next access;
the runs of `Step` are every interleaving of the workers. A task is a
`TaskProg`, a tree of view reads ending in an `ExecutionStatus`. A panic stops
its worker in `panicked`, and the `rayon` scope then panics, which `finish`
reports. Parallel iterators are modelled by their sequential versions.

**`executeTransactionsParallel_singleCpu`**: with one CPU, `compute_cpus` is
`0`, no worker runs, and every block with a write ends in
`Err(InvariantViolation)`. **`executeTransactionsParallel_rereadPanics`**: a
task that reads again after a read returned an error registers its version
twice as waiting for a lower one; the version is executed twice, and the
second `set_result` panics. Whether every version is executed exactly once
when tasks return right after a failed read is not proved here.
-/

namespace Diem.Vm

/-- What `ExecutorTask::execute_transaction` does with its `MVHashMapView`:
read keys, each answer (a value, `None` to read storage, or an error)
choosing what comes next, and end with a status. -/
inductive TaskProg (K V O E : Type) where
  | done (status : ExecutionStatus O E)
  | read (key : K) (cont : Except String (Option V) → TaskProg K V O E)

/-- An `ExecutorTask` and the `TransactionOutput` of its outputs. -/
structure ExecutorTask (T K V O E : Type) where
  /-- `execute_transaction` of the task that `E::init` builds, over a view at
  the given version. -/
  executeTransaction : Version → T → TaskProg K V O E
  /-- `TransactionOutput::get_writes`. -/
  getWrites : O → List (K × V)
  /-- `TransactionOutput::skip_output`. -/
  skipOutput : O

/-- `ParallelTransactionExecutor`. -/
structure ParallelTransactionExecutor (T K : Type) where
  /-- `num_cpus`, which `new` sets to `num_cpus::get()`. -/
  numCpus : ℕ
  /-- `ReadWriteSetInferencer::infer_reads_writes`; an `anyhow` error is its message. -/
  inferencer : T → Except String (Accesses K)

/-- The error `MVHashMapView::read` bails with. -/
def readRetryError : String := "Read dependency is not computed, retry later"

/-- Where a worker is in its loop. `idx` is the version it runs and
`written` the inferred write set of that version. -/
inductive Pc (T K V O E : Type) where
  /-- At `txn_buffer.pop()`. -/
  | next
  /-- The buffer was empty: at `execution_marker.fetch_add(1)`. -/
  | fetchMarker
  /-- Fetched `m`: at the comparison with `num_txn_to_execute()`. -/
  | compareMarker (m : Version)
  /-- In the `any` over the inferred reads, at the read of the first of `keys`. -/
  | checkReads (idx : Version) (txn : T) (written keys : List K)
  /-- The read saw version `dep` not yet set: at `add_dependency`. -/
  | checkDependency (idx : Version) (txn : T) (written keys : List K) (dep : Version)
  /-- Running the task; `unexpected` is the view's `has_unexpected_read`. -/
  | running (idx : Version) (written : List K) (prog : TaskProg K V O E) (unexpected : Bool)
  /-- A view read saw version `dep` not yet set: at `add_dependency`. -/
  | viewDependency (idx : Version) (written : List K) (dep : Version)
      (cont : Except String (Option V) → TaskProg K V O E)
  /-- `dep` had finished: at `add_transaction(self.version)`. -/
  | viewRequeue (idx : Version) (written : List K) (cont : Except String (Option V) → TaskProg K V O E)
  /-- Committing the task's writes, `commit` being the status if they all succeed. -/
  | writing (idx : Version) (written : List K) (commit : ExecutionStatus O (Error E)) (writes : List (K × V))
  /-- At `set_stop_version(idx + 1)`. -/
  | stopping (idx : Version) (written : List K) (commit : ExecutionStatus O (Error E))
  /-- At `skip_if_not_set` of the first of `keys`. -/
  | skipping (idx : Version) (commit : ExecutionStatus O (Error E)) (keys : List K)
  /-- At the status store of `finish_execution`. -/
  | finishing (idx : Version) (commit : ExecutionStatus O (Error E))
  /-- At the `take` of the dependencies in `finish_execution`. -/
  | taking (idx : Version) (commit : ExecutionStatus O (Error E))
  /-- Pushing the versions that waited. -/
  | pushing (idx : Version) (commit : ExecutionStatus O (Error E)) (deps : List Version)
  /-- At `set_result`. -/
  | recording (idx : Version) (commit : ExecutionStatus O (Error E))
  /-- Left the loop. -/
  | done
  /-- Panicked. -/
  | panicked

namespace Pc

variable {T K V O E : Type}

/-- A worker that has stopped. -/
def isTerminal : Pc T K V O E → Bool
  | done => true
  | panicked => true
  | _ => false

/-- A worker that has panicked. -/
def isPanicked : Pc T K V O E → Bool
  | panicked => true
  | _ => false

theorem eq_panicked_of_isPanicked {pc : Pc T K V O E} (h : pc.isPanicked = true) : pc = panicked := by
  cases pc <;> first | rfl | cases h

end Pc

/-- The state the workers share. -/
structure Shared (K V O E : Type) where
  /-- The `Scheduler`. -/
  scheduler : Scheduler
  /-- `versioned_data_cache`. -/
  versionedDataCache : MVHashMap K V
  /-- `outcomes`. -/
  outcomes : OutcomeArray O E

/-- The shared state and every worker. -/
structure Config (T K V O E : Type) where
  /-- The shared state. -/
  shared : Shared K V O E
  /-- The workers. -/
  workers : List (Pc T K V O E)

/-- What `execute_transactions_parallel` does: return, or panic. -/
inductive Outcome (O E : Type) where
  | returned (result : Except (Error E) (List O))
  | panicked

variable {T K V O E : Type} [DecidableEq K]

section Worker

variable (task : ExecutorTask T K V O E) (block : List T) (inferResult : List (Accesses K))

/-- The top of the loop with version `idx`: `&signature_verified_block[idx]` and
`&infer_result[idx]`. -/
def beginTxn (idx : Version) : Pc T K V O E :=
  match block[idx]?, inferResult[idx]? with
  | some txn, some accesses => .checkReads idx txn accesses.keysWritten accesses.keysRead
  | _, _ => .panicked

/-- One step of a worker: its next access of the shared state, and where it
then is; `none` for a worker that has stopped. -/
def workerStep (sh : Shared K V O E) : Pc T K V O E → Option (Pc T K V O E × Shared K V O E)
  | .next =>
    match sh.scheduler.popBuffer with
    | (some idx, s) => some (beginTxn block inferResult idx, { sh with scheduler := s })
    | (none, s) => some (.fetchMarker, { sh with scheduler := s })
  | .fetchMarker =>
    some (.compareMarker sh.scheduler.fetchAddMarker.1, { sh with scheduler := sh.scheduler.fetchAddMarker.2 })
  | .compareMarker m =>
    some (if m < sh.scheduler.numTxnToExecute then beginTxn block inferResult m else .done, sh)
  | .checkReads idx txn written [] =>
    some (.running idx written (task.executeTransaction idx txn) false, sh)
  | .checkReads idx txn written (key :: keys) =>
    match sh.versionedDataCache.read key idx with
    | .error (some dep) => some (.checkDependency idx txn written keys dep, sh)
    | _ => some (.checkReads idx txn written keys, sh)
  | .checkDependency idx txn written keys dep =>
    match sh.scheduler.addDependency idx dep with
    | some (true, s) => some (.next, { sh with scheduler := s })
    | some (false, s) => some (.checkReads idx txn written keys, { sh with scheduler := s })
    | none => some (.panicked, sh)
  | .running idx written (.read key cont) unexpected =>
    match sh.versionedDataCache.read key idx with
    | .ok v => some (.running idx written (cont (.ok (some v))) unexpected, sh)
    | .error none => some (.running idx written (cont (.ok none)) unexpected, sh)
    | .error (some dep) => some (.viewDependency idx written dep cont, sh)
  | .running idx written (.done status) unexpected =>
    if unexpected then some (.next, sh) else
    match status with
    | .Success output => some (.writing idx written (.Success output) (task.getWrites output), sh)
    | .SkipRest output => some (.writing idx written (.SkipRest output) (task.getWrites output), sh)
    | .Abort err => some (.stopping idx written (.Abort (.UserError err)), sh)
  | .viewDependency idx written dep cont =>
    match sh.scheduler.addDependency idx dep with
    | some (true, s) => some (.running idx written (cont (.error readRetryError)) true, { sh with scheduler := s })
    | some (false, s) => some (.viewRequeue idx written cont, { sh with scheduler := s })
    | none => some (.panicked, sh)
  | .viewRequeue idx written cont =>
    some (.running idx written (cont (.error readRetryError)) true,
      { sh with scheduler := sh.scheduler.addTransaction idx })
  | .writing idx written commit [] =>
    match commit with
    | .SkipRest _ => some (.stopping idx written commit, sh)
    | _ => some (.skipping idx commit written, sh)
  | .writing idx written commit ((key, v) :: writes) =>
    match sh.versionedDataCache.write key idx v with
    | .ok (some cache) => some (.writing idx written commit writes, { sh with versionedDataCache := cache })
    | .ok none => some (.panicked, sh)
    | .error _ => some (.skipping idx (.Abort .UnestimatedWrite) written, sh)
  | .stopping idx written commit =>
    some (.skipping idx commit written, { sh with scheduler := sh.scheduler.setStopVersion (idx + 1) })
  | .skipping idx commit [] => some (.finishing idx commit, sh)
  | .skipping idx commit (key :: keys) =>
    match sh.versionedDataCache.skipIfNotSet key idx with
    | .ok cache => some (.skipping idx commit keys, { sh with versionedDataCache := cache })
    | .error _ => some (.panicked, sh)
  | .finishing idx commit =>
    match sh.scheduler.markExecuted idx with
    | some s => some (.taking idx commit, { sh with scheduler := s })
    | none => some (.panicked, sh)
  | .taking idx commit =>
    match sh.scheduler.takeDependencies idx with
    | some (deps, s) => some (.pushing idx commit deps, { sh with scheduler := s })
    | none => some (.panicked, sh)
  | .pushing idx commit [] => some (.recording idx commit, sh)
  | .pushing idx commit (dep :: deps) =>
    some (.pushing idx commit deps, { sh with scheduler := sh.scheduler.addTransaction dep })
  | .recording idx commit =>
    match sh.outcomes.setResult idx commit with
    | some outcomes => some (.next, { sh with outcomes := outcomes })
    | none => some (.panicked, sh)
  | .done => none
  | .panicked => none

/-- One step of one worker. -/
inductive Step : Config T K V O E → Config T K V O E → Prop where
  | worker {c : Config T K V O E} {i : ℕ} {pc pc' : Pc T K V O E} {sh : Shared K V O E}
      (hpc : c.workers[i]? = some pc) (hstep : workerStep task block inferResult c.shared pc = some (pc', sh)) :
      Step c ⟨sh, c.workers.set i pc'⟩

/-- Run the workers in the order of a schedule of worker indices; `none` when
a scheduled worker does not exist or has stopped. -/
def runSchedule : List ℕ → Config T K V O E → Option (Config T K V O E)
  | [], c => some c
  | i :: schedule, c =>
    match c.workers[i]? with
    | some pc =>
      match workerStep task block inferResult c.shared pc with
      | some (pc', sh) => runSchedule schedule ⟨sh, c.workers.set i pc'⟩
      | none => none
    | none => none

end Worker

/-- The pairs of a key and the version that may write it, from the inferred
write sets (`path_version_tuples`). -/
def pathVersionTuples (inferResult : List (Accesses K)) : List (K × Version) :=
  inferResult.zipIdx.flatMap fun (accesses, idx) => accesses.keysWritten.map ((·, idx))

/-- `compute_cpus`, the number of workers. -/
def computeCpus (numCpus numTxns maxDependencyLevel : ℕ) : ℕ :=
  min (numTxns / maxDependencyLevel) (min (1 + numTxns / 50) (numCpus - 1))

/-- `execute_transactions_parallel` up to the scope: an early result, or the
inferred accesses and the configuration the workers start from. -/
def start (executor : ParallelTransactionExecutor T K) (block : List T) :
    Except (Outcome O E) (List (Accesses K) × Config T K V O E) :=
  if block.isEmpty then .error (.returned (.ok [])) else
  if executor.numCpus = 0 then .error .panicked else
  match block.mapM executor.inferencer with
  | .error _ => .error (.returned (.error .InferencerError))
  | .ok inferResult =>
    let (versionedDataCache, maxDependencyLevel) :=
      (MVHashMap.newFrom (pathVersionTuples inferResult) : MVHashMap K V × ℕ)
    if maxDependencyLevel = 0 then .error (.returned (.error .InferencerError)) else
    .ok (inferResult, ⟨⟨Scheduler.new block.length, versionedDataCache, OutcomeArray.new block.length⟩,
      List.replicate (computeCpus executor.numCpus block.length maxDependencyLevel) .next⟩)

/-- After the scope: a panic if a worker panicked, else `get_all_results` up to
`num_txn_to_execute()`. -/
def finish (task : ExecutorTask T K V O E) (c : Config T K V O E) : Outcome O E :=
  if c.workers.any Pc.isPanicked then .panicked else
  match c.shared.outcomes.getAllResults c.shared.scheduler.numTxnToExecute task.skipOutput with
  | some result => .returned result
  | none => .panicked

/-- The outcomes `execute_transactions_parallel` can have: the early ones, and
those of every interleaving of the workers that ends with all of them stopped. -/
def executeTransactionsParallel (executor : ParallelTransactionExecutor T K) (task : ExecutorTask T K V O E)
    (block : List T) (r : Outcome O E) : Prop :=
  match start executor block with
  | .error early => r = early
  | .ok (inferResult, c₀) =>
    ∃ c, Relation.ReflTransGen (Step task block inferResult) c₀ c ∧ c.workers.all Pc.isTerminal ∧ finish task c = r

section Runs

variable {task : ExecutorTask T K V O E} {block : List T} {inferResult : List (Accesses K)}

theorem workerStep_eq_none_iff {sh : Shared K V O E} {pc : Pc T K V O E} :
    workerStep task block inferResult sh pc = none ↔ pc.isTerminal := by
  cases pc with
  | next => simp only [workerStep, Pc.isTerminal]; split <;> simp
  | checkReads idx txn written keys =>
    cases keys with
    | nil => simp [workerStep, Pc.isTerminal]
    | cons key keys => simp only [workerStep, Pc.isTerminal]; split <;> simp
  | checkDependency => simp only [workerStep, Pc.isTerminal]; split <;> simp
  | running idx written prog unexpected =>
    cases prog with
    | read => simp only [workerStep, Pc.isTerminal]; split <;> simp
    | done status =>
      simp only [workerStep, Pc.isTerminal]
      split
      · simp
      · split <;> simp
  | viewDependency => simp only [workerStep, Pc.isTerminal]; split <;> simp
  | writing idx written commit writes =>
    cases writes with
    | nil => simp only [workerStep, Pc.isTerminal]; split <;> simp
    | cons w writes => simp only [workerStep, Pc.isTerminal]; split <;> simp
  | skipping idx commit keys =>
    cases keys with
    | nil => simp [workerStep, Pc.isTerminal]
    | cons key keys => simp only [workerStep, Pc.isTerminal]; split <;> simp
  | finishing => simp only [workerStep, Pc.isTerminal]; split <;> simp
  | taking => simp only [workerStep, Pc.isTerminal]; split <;> simp
  | pushing idx commit deps => cases deps <;> simp [workerStep, Pc.isTerminal]
  | recording => simp only [workerStep, Pc.isTerminal]; split <;> simp
  | _ => simp [workerStep, Pc.isTerminal]

theorem reflTransGen_of_runSchedule :
    ∀ {schedule : List ℕ} {c c' : Config T K V O E}, runSchedule task block inferResult schedule c = some c' →
      Relation.ReflTransGen (Step task block inferResult) c c'
  | [], c, c', h => by
    cases h
    exact .refl
  | i :: schedule, c, c', h => by
    simp only [runSchedule] at h
    rcases hpc : c.workers[i]? with _ | pc
    · simp [hpc] at h
    · rcases hstep : workerStep task block inferResult c.shared pc with _ | ⟨pc', sh⟩
      · simp [hpc, hstep] at h
      · simp only [hpc, hstep] at h
        exact .head (.worker hpc hstep) (reflTransGen_of_runSchedule h)

/-- A configuration without workers has no step. -/
theorem eq_of_workers_nil {c c' : Config T K V O E} (hnil : c.workers = [])
    (hrun : Relation.ReflTransGen (Step task block inferResult) c c') : c' = c := by
  induction hrun with
  | refl => rfl
  | tail _ hstep ih =>
    subst ih
    cases hstep with
    | worker hpc _ => simp [hnil] at hpc

/-- A panicked worker stays panicked. -/
theorem Step.panicked {c c' : Config T K V O E} (hstep : Step task block inferResult c c') {i : ℕ}
    (h : c.workers[i]? = some .panicked) : c'.workers[i]? = some .panicked := by
  cases hstep with
  | @worker j pc pc' sh hpc hs =>
    show (c.workers.set j pc')[i]? = some .panicked
    rw [List.getElem?_set]
    split
    · next hji =>
      subst hji
      rw [h, Option.some.injEq] at hpc
      subst hpc
      cases hs
    · exact h

theorem finish_of_panicked {c c' : Config T K V O E} (hrun : Relation.ReflTransGen (Step task block inferResult) c c')
    {i : ℕ} (h : c.workers[i]? = some .panicked) : finish task c' = .panicked := by
  have hi : c'.workers[i]? = some .panicked := by
    induction hrun with
    | refl => exact h
    | tail _ hstep ih => exact hstep.panicked ih
  have hany : c'.workers.any Pc.isPanicked = true :=
    List.any_eq_true.mpr ⟨.panicked, List.mem_of_getElem? hi, rfl⟩
  simp [finish, hany]

/-- A schedule after which worker `i` has panicked gives a run to such a configuration. -/
theorem exists_panicked_of_runSchedule {schedule : List ℕ} {c₀ : Config T K V O E} {i : ℕ}
    (h : ((runSchedule task block inferResult schedule c₀).bind (·.workers[i]?)).any Pc.isPanicked = true) :
    ∃ c, Relation.ReflTransGen (Step task block inferResult) c₀ c ∧ c.workers[i]? = some .panicked := by
  rcases hrun : runSchedule task block inferResult schedule c₀ with _ | c
  · rw [hrun] at h
    cases h
  · rw [hrun, Option.bind_some] at h
    refine ⟨c, reflTransGen_of_runSchedule hrun, ?_⟩
    rcases hpc : c.workers[i]? with _ | pc
    · rw [hpc] at h
      cases h
    · rw [hpc, Option.any_some] at h
      rw [Pc.eq_panicked_of_isPanicked h]

end Runs

section Start

variable {block : List T} {inferResult : List (Accesses K)}

omit [DecidableEq K] in
theorem pathVersionTuples_ne_nil (hwrite : ∃ accesses ∈ inferResult, accesses.keysWritten ≠ []) :
    pathVersionTuples inferResult ≠ [] := by
  obtain ⟨accesses, hmem, hne⟩ := hwrite
  obtain ⟨idx, hidx⟩ := List.mem_iff_getElem?.mp hmem
  obtain ⟨key, keys, hkeys⟩ := List.exists_cons_of_ne_nil hne
  have hzip : (accesses, idx) ∈ inferResult.zipIdx := List.mem_zipIdx_iff_getElem?.mpr hidx
  have hpair : (key, idx) ∈ pathVersionTuples inferResult :=
    List.mem_flatMap.mpr ⟨(accesses, idx), hzip, by simp [hkeys]⟩
  exact List.ne_nil_of_mem hpair

omit [DecidableEq K] in
/-- A block whose inferred accesses have a write is not empty. -/
theorem length_pos_of_write {inferencer : T → Except String (Accesses K)}
    (hinfer : block.mapM inferencer = .ok inferResult) (hwrite : ∃ accesses ∈ inferResult, accesses.keysWritten ≠ []) :
    0 < block.length := by
  obtain ⟨accesses, hmem, -⟩ := hwrite
  rw [← Except.length_of_mapM_eq_ok hinfer]
  exact List.length_pos_of_mem hmem

/-- What `start` builds when the block is not empty, there is a CPU, and the
inferencer succeeds with a write. -/
theorem start_eq_ok (executor : ParallelTransactionExecutor T K) (hcpus : executor.numCpus ≠ 0)
    (hinfer : block.mapM executor.inferencer = .ok inferResult)
    (hwrite : ∃ accesses ∈ inferResult, accesses.keysWritten ≠ []) :
    (start executor block : Except (Outcome O E) _) = .ok (inferResult,
      ⟨⟨Scheduler.new block.length, (MVHashMap.newFrom (pathVersionTuples inferResult) : MVHashMap K V × ℕ).1,
        OutcomeArray.new block.length⟩,
        List.replicate (computeCpus executor.numCpus block.length
          (MVHashMap.newFrom (pathVersionTuples inferResult) : MVHashMap K V × ℕ).2) .next⟩) := by
  have hblock : block.isEmpty = false :=
    List.isEmpty_eq_false_iff.mpr (List.ne_nil_of_length_pos (length_pos_of_write hinfer hwrite))
  have hmdl := MVHashMap.newFrom_snd_pos (V := V) (pathVersionTuples_ne_nil hwrite)
  simp only [start, hblock, hcpus, hinfer, Nat.pos_iff_ne_zero.mp hmdl]
  rfl

end Start

theorem computeCpus_one (numTxns maxDependencyLevel : ℕ) : computeCpus 1 numTxns maxDependencyLevel = 0 := by
  simp [computeCpus]

theorem executeTransactionsParallel_singleCpu (inferencer : T → Except String (Accesses K))
    (task : ExecutorTask T K V O E) {block : List T} {inferResult : List (Accesses K)}
    (hinfer : block.mapM inferencer = .ok inferResult)
    (hwrite : ∃ accesses ∈ inferResult, accesses.keysWritten ≠ []) (r : Outcome O E) :
    executeTransactionsParallel ⟨1, inferencer⟩ task block r ↔ r = .returned (.error .InvariantViolation) := by
  have hpos : 0 < block.length := length_pos_of_write hinfer hwrite
  have hstart := start_eq_ok (V := V) (O := O) (E := E) ⟨1, inferencer⟩ Nat.one_ne_zero hinfer hwrite
  simp only [computeCpus_one, List.replicate_zero] at hstart
  set c₀ : Config T K V O E := ⟨⟨Scheduler.new block.length,
    (MVHashMap.newFrom (pathVersionTuples inferResult) : MVHashMap K V × ℕ).1,
    OutcomeArray.new block.length⟩, []⟩ with hc₀
  have hfinish : finish task c₀ = .returned (.error .InvariantViolation) := by
    simp only [finish, hc₀, List.any_nil, Bool.false_eq_true, if_false, Scheduler.numTxnToExecute, Scheduler.new,
      OutcomeArray.getAllResults_new hpos le_rfl]
  unfold executeTransactionsParallel
  rw [hstart]
  constructor
  · rintro ⟨c, hrun, -, rfl⟩
    rw [eq_of_workers_nil rfl hrun]
    exact hfinish
  · rintro rfl
    exact ⟨c₀, .refl, rfl, hfinish⟩

/-- One transaction, writing key `0`, on one CPU. -/
theorem executeTransactionsParallel_singleCpu_oneWrite :
    executeTransactionsParallel ⟨1, fun _ => .ok ⟨[], [0]⟩⟩
      (⟨fun _ _ => .done (.Success ()), fun _ => [], ()⟩ : ExecutorTask Unit ℕ ℕ Unit Unit) [()]
      (.returned (.error .InvariantViolation)) :=
  (executeTransactionsParallel_singleCpu (fun _ => .ok ⟨[], [0]⟩) _
    (rfl : [()].mapM (fun _ => (.ok ⟨[], [0]⟩ : Except String (Accesses ℕ))) = .ok [⟨[], [0]⟩])
    ⟨⟨[], [0]⟩, List.mem_singleton_self _, List.cons_ne_nil 0 []⟩ _).mpr rfl

section Reread

/-! A task that reads once more after a failed read, as `DiemVM` does when it
runs the failure epilogue after a storage error. -/

/-- Version `0` writes key `0`; version `1` reads key `0`, which it did not
declare, and reads it again when the read fails; the others do nothing. -/
def rereadTask : ExecutorTask ℕ ℕ ℕ (List (ℕ × ℕ)) Unit where
  executeTransaction _ txn :=
    if txn = 0 then .done (.Success [(0, 7)])
    else if txn = 1 then .read 0 fun r =>
      match r with
      | .ok _ => .done (.Success [])
      | .error _ => .read 0 fun _ => .done (.Success [])
    else .done (.Success [])
  getWrites := id
  skipOutput := []

/-- Three CPUs, and an inferencer that gives version `0` the write of key `0`. -/
def rereadExecutor : ParallelTransactionExecutor ℕ ℕ := ⟨3, fun txn => .ok ⟨[], if txn = 0 then [0] else []⟩⟩

/-- Fifty transactions, so that there are two workers. -/
def rereadBlock : List ℕ := List.range 50

/-- Worker `0` takes version `0` and worker `1` version `1`, whose two reads
register it twice as waiting for version `0`. Worker `0` then finishes
version `0`, pushing version `1` twice, and runs it; worker `1` runs it again
up to `set_result`. -/
def rereadSchedule : List ℕ :=
  List.replicate 4 0 ++ List.replicate 9 1 ++ List.replicate 21 0 ++ List.replicate 10 1

theorem executeTransactionsParallel_rereadPanics :
    ∃ inferResult c₀ c,
      (start rereadExecutor rereadBlock : Except (Outcome (List (ℕ × ℕ)) Unit) _) = .ok (inferResult, c₀) ∧
      Relation.ReflTransGen (Step rereadTask rereadBlock inferResult) c₀ c ∧ c.workers[1]? = some .panicked ∧
      ∀ c', Relation.ReflTransGen (Step rereadTask rereadBlock inferResult) c c' → finish rereadTask c' = .panicked := by
  have key : (match (start rereadExecutor rereadBlock :
      Except (Outcome (List (ℕ × ℕ)) Unit) (List (Accesses ℕ) × Config ℕ ℕ ℕ (List (ℕ × ℕ)) Unit)) with
    | .ok (inferResult, c₀) =>
      ((runSchedule rereadTask rereadBlock inferResult rereadSchedule c₀).bind (·.workers[1]?)).any Pc.isPanicked
    | .error _ => false) = true := by decide
  rcases hstart : (start rereadExecutor rereadBlock :
      Except (Outcome (List (ℕ × ℕ)) Unit) (List (Accesses ℕ) × Config ℕ ℕ ℕ (List (ℕ × ℕ)) Unit))
    with early | ⟨inferResult, c₀⟩
  · rw [hstart] at key
    cases key
  · rw [hstart] at key
    obtain ⟨c, hrun, hpanicked⟩ := exists_panicked_of_runSchedule key
    exact ⟨inferResult, c₀, c, rfl, hrun, hpanicked, fun c' hrun' => finish_of_panicked hrun' hpanicked⟩

end Reread

end Diem.Vm
