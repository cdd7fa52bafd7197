import Diem.Consensus.Types
import Diem.Theory.Maps
import Diem.Theory.Runs

/-!
# The block tree and the block store

`consensus/src/block_storage/block_tree.rs` and the requests of `block_store.rs`
that change it: `execute_and_insert_block`, `insert_single_quorum_cert`,
`insert_timeout_certificate`, `insert_2chain_timeout_certificate` and `commit`,
with the commit callback run synchronously, as `ExecutionProxy::commit` runs it.

Blocks and certificates are kept in `AList`s, and a block's `children` in the
order they were added. What the state computer and the persistent storage answer
is part of each request, so one step function describes every environment. A
failed request returns its failure with the tree as it was: every `bail!`,
`ensure!` and `?` of these requests comes before the first change. A panic ends
the process, so a run never goes on after one.

Two loops are not bounded by their data: the pruning walk of
`find_blocks_to_prune` follows children links and `path_from_root_to_block`
follows parent links. Each has fuel. The parent walk visits a block twice only
on a cycle, where the source loops for ever, so `keys.length + 1` rounds are all
a finite run can make; the pruning walk pops once per path from the root, and
acyclic links on `n` blocks have fewer than `2 ^ n` paths. Running out of fuel
is `Failure.diverges`.
-/

namespace Diem

/-- `LedgerInfoWithSignatures::commit_info`. -/
def LedgerInfoWithSignatures.commitInfo (li : LedgerInfoWithSignatures) : BlockInfo := li.ledgerInfo.commitInfo

namespace Consensus

/-- `QuorumCert::ledger_info().ledger_info().commit_info()`. -/
def QuorumCert.commitInfo (qc : QuorumCert) : BlockInfo := qc.signedLedgerInfo.ledgerInfo.commitInfo

/-- `TimeoutCertificate::round`. -/
def TimeoutCertificate.round (tc : TimeoutCertificate) : ℕ := tc.timeout.round

/-- How a request of the block store fails. -/
inductive Failure where
  /-- An `anyhow` error returned to the caller, with its message. -/
  | error (message : String)
  /-- A failed `assert!`, `expect` or `unwrap`, with its message. -/
  | panic (message : String)
  /-- One of the two unbounded walks does not end. -/
  | diverges
  deriving DecidableEq, Repr

/-- `Option::expect`. -/
def expect {α : Type} (message : String) : Option α → Except Failure α
  | some a => .ok a
  | none => .error (.panic message)

@[simp] theorem expect_some {α : Type} (message : String) (a : α) : expect message (some a) = .ok a := rfl

@[simp] theorem expect_none {α : Type} (message : String) : expect message (none : Option α) = .error (.panic message) :=
  rfl

/-- `StateComputeResult`, as far as `ExecutedBlock::block_info` reads it. -/
structure StateComputeResult where
  /-- The root hash of the transaction accumulator after the block. -/
  rootHash : HashValue
  /-- The version after the block. -/
  version : ℕ
  /-- The next epoch's state, when the block ends an epoch. -/
  epochState : Option EpochState
  deriving DecidableEq

/-- `ExecutedBlock`: a block with the result of executing it. -/
structure ExecutedBlock where
  /-- The block. -/
  block : Block
  /-- `state_compute_result`. -/
  stateComputeResult : StateComputeResult
  deriving DecidableEq

namespace ExecutedBlock

/-- `id`. -/
def id (b : ExecutedBlock) : HashValue := b.block.id

/-- `parent_id`: the block its quorum certificate certifies. -/
def parentId (b : ExecutedBlock) : HashValue := b.block.quorumCert.certifiedBlock.id

/-- `round`. -/
def round (b : ExecutedBlock) : ℕ := b.block.round

/-- `block_info`. -/
def blockInfo (b : ExecutedBlock) : BlockInfo :=
  b.block.genBlockInfo b.stateComputeResult.rootHash b.stateComputeResult.version b.stateComputeResult.epochState

end ExecutedBlock

/-- `LinkableBlock`: an executed block with the ids of its children. -/
structure LinkableBlock where
  /-- `executed_block`. -/
  executedBlock : ExecutedBlock
  /-- `children`, a `HashSet`, in the order the children were added. -/
  children : List HashValue
  deriving DecidableEq

namespace LinkableBlock

/-- `LinkableBlock::new`. -/
def new (block : ExecutedBlock) : LinkableBlock := ⟨block, []⟩

/-- `id`. -/
def id (b : LinkableBlock) : HashValue := b.executedBlock.id

/-- `add_child`: `assert!(self.children.insert(child_id), "Block {:x} already existed.")`. -/
def addChild (b : LinkableBlock) (childId : HashValue) : Except Failure LinkableBlock :=
  if childId ∈ b.children then .error (.panic "Block already existed.")
  else .ok { b with children := b.children ++ [childId] }

end LinkableBlock

/-- `BlockTree`. -/
structure BlockTree where
  /-- `id_to_block`: every block known to this replica. -/
  idToBlock : AList (fun _ : HashValue => LinkableBlock)
  /-- `ordered_root_id`: the root of the ordering phase. -/
  orderedRootId : HashValue
  /-- `commit_root_id`: the root of the commit phase. -/
  commitRootId : HashValue
  /-- `highest_certified_block_id`. -/
  highestCertifiedBlockId : HashValue
  /-- `highest_quorum_cert`: the certificate of the highest certified block. -/
  highestQuorumCert : QuorumCert
  /-- `highest_timeout_cert`. -/
  highestTimeoutCert : Option TimeoutCertificate
  /-- `highest_2chain_timeout_cert`. -/
  highest2chainTimeoutCert : Option TwoChainTimeoutCertificate
  /-- `highest_ordered_cert`: the certificate with the highest commit info. -/
  highestOrderedCert : QuorumCert
  /-- `highest_ledger_info`: the ledger info with the highest commit decision. -/
  highestLedgerInfo : LedgerInfoWithSignatures
  /-- `id_to_quorum_cert`. -/
  idToQuorumCert : AList (fun _ : HashValue => QuorumCert)
  /-- `pruned_block_ids`: pruned blocks not yet removed, oldest first. -/
  prunedBlockIds : List HashValue
  /-- `max_pruned_blocks_in_mem`. -/
  maxPrunedBlocksInMem : ℕ

namespace BlockTree

/-- `BlockTree::new`. -/
def new (root : ExecutedBlock) (rootQuorumCert rootOrderedCert : QuorumCert)
    (rootCommitLedgerInfo : LedgerInfoWithSignatures) (maxPrunedBlocksInMem : ℕ)
    (highestTimeoutCert : Option TimeoutCertificate)
    (highest2chainTimeoutCert : Option TwoChainTimeoutCertificate) : Except Failure BlockTree :=
  if root.id = rootOrderedCert.commitInfo.id then
    .ok { idToBlock := (∅ : AList _).insert root.id (LinkableBlock.new root)
          orderedRootId := root.id
          commitRootId := root.id
          highestCertifiedBlockId := root.id
          highestQuorumCert := rootQuorumCert
          highestTimeoutCert := highestTimeoutCert
          highest2chainTimeoutCert := highest2chainTimeoutCert
          highestOrderedCert := rootOrderedCert
          highestLedgerInfo := rootCommitLedgerInfo
          idToQuorumCert := (∅ : AList _).insert rootQuorumCert.certifiedBlock.id rootQuorumCert
          prunedBlockIds := []
          maxPrunedBlocksInMem := maxPrunedBlocksInMem }
  else .error (.panic "inconsistent root and ledger info")

variable (t : BlockTree)

/-- `get_linkable_block`. -/
def getLinkableBlock (blockId : HashValue) : Option LinkableBlock := t.idToBlock.lookup blockId

/-- `get_block`. -/
def getBlock (blockId : HashValue) : Option ExecutedBlock := (t.getLinkableBlock blockId).map (·.executedBlock)

/-- `block_exists`. -/
def blockExists (blockId : HashValue) : Bool := decide (blockId ∈ t.idToBlock)

/-- `linkable_root`: the commit root. -/
def linkableRoot : Except Failure LinkableBlock := expect "Root must exist" (t.getLinkableBlock t.commitRootId)

/-- `ordered_root`. -/
def orderedRoot : Except Failure ExecutedBlock := expect "Root must exist" (t.getBlock t.orderedRootId)

/-- `commit_root`. -/
def commitRoot : Except Failure ExecutedBlock := expect "Commit root must exist" (t.getBlock t.commitRootId)

/-- `highest_certified_block`. -/
def highestCertifiedBlock : Except Failure ExecutedBlock :=
  expect "Highest cerfified block must exist" (t.getBlock t.highestCertifiedBlockId)

/-- `remove_block`. -/
def removeBlock (blockId : HashValue) : BlockTree :=
  { t with idToBlock := t.idToBlock.erase blockId, idToQuorumCert := t.idToQuorumCert.erase blockId }

/-- `replace_timeout_cert`. -/
def replaceTimeoutCert (tc : TimeoutCertificate) : BlockTree := { t with highestTimeoutCert := some tc }

/-- `replace_2chain_timeout_cert`. -/
def replace2chainTimeoutCert (tc : TwoChainTimeoutCertificate) : BlockTree :=
  { t with highest2chainTimeoutCert := some tc }

/-- `insert_block`: a block already there is returned as it is; otherwise the
parent gets the child link and the block is stored. -/
def insertBlock (block : ExecutedBlock) : Except Failure (ExecutedBlock × BlockTree) :=
  match t.getBlock block.id with
  | some existingBlock => .ok (existingBlock, t)
  | none =>
    match t.getLinkableBlock block.parentId with
    | none => .error (.error "Parent block not found")
    | some parentBlock => do
      let parentBlock ← parentBlock.addChild block.id
      let idToBlock := t.idToBlock.insert block.parentId parentBlock
      if block.id ∈ idToBlock then .error (.panic "assertion failed: insert is_none")
      else .ok (block, { t with idToBlock := idToBlock.insert block.id (LinkableBlock.new block) })

/-- `update_ordered_root`. -/
def updateOrderedRoot (rootId : HashValue) : Except Failure BlockTree :=
  if t.blockExists rootId then .ok { t with orderedRootId := rootId }
  else .error (.panic "assertion failed: block_exists")

/-- `update_commit_root`. -/
def updateCommitRoot (rootId : HashValue) : Except Failure BlockTree :=
  if t.blockExists rootId then .ok { t with commitRootId := rootId }
  else .error (.panic "assertion failed: block_exists")

/-- `update_highest_ledger_info`: a ledger info of a higher commit round
replaces the highest one and moves the commit root to its block. -/
def updateHighestLedgerInfo (newLedgerInfoWithSig : LedgerInfoWithSignatures) : Except Failure BlockTree :=
  if newLedgerInfoWithSig.commitInfo.round > t.highestLedgerInfo.commitInfo.round then
    updateCommitRoot { t with highestLedgerInfo := newLedgerInfoWithSig } newLedgerInfoWithSig.commitInfo.id
  else .ok t

/-- `insert_quorum_cert`. -/
def insertQuorumCert (qc : QuorumCert) : Except Failure BlockTree :=
  let blockId := qc.certifiedBlock.id
  match t.getBlock blockId with
  | none => .error (.error "Block not found")
  | some block => do
    let highest ← t.highestCertifiedBlock
    let t := if block.round > highest.round then
      { t with highestCertifiedBlockId := block.id, highestQuorumCert := qc } else t
    let t := { t with idToQuorumCert := t.idToQuorumCert.orInsert blockId qc }
    .ok (if t.highestOrderedCert.commitInfo.round < qc.commitInfo.round then { t with highestOrderedCert := qc }
      else t)

/-- The `for child_id in block_to_remove.children()` loop of
`find_blocks_to_prune`: every child but the new root is pushed. -/
def pushChildren (nextRootId : HashValue) : List HashValue → List LinkableBlock → Except Failure (List LinkableBlock)
  | [], blocksToBePruned => .ok blocksToBePruned
  | childId :: childIds, blocksToBePruned =>
    if nextRootId = childId then pushChildren nextRootId childIds blocksToBePruned
    else do
      let child ← expect "Child must exist in the tree" (t.getLinkableBlock childId)
      pushChildren nextRootId childIds (child :: blocksToBePruned)

/-- The `while let Some(block_to_remove) = blocks_to_be_pruned.pop()` loop of
`find_blocks_to_prune`, the stack's top first. -/
def pruneLoop (nextRootId : HashValue) :
    ℕ → List LinkableBlock → List HashValue → Except Failure (List HashValue)
  | _, [], blocksPruned => .ok blocksPruned
  | 0, _ :: _, _ => .error .diverges
  | fuel + 1, blockToRemove :: blocksToBePruned, blocksPruned => do
    let blocksToBePruned ← t.pushChildren nextRootId blockToRemove.children blocksToBePruned
    pruneLoop nextRootId fuel blocksToBePruned (blocksPruned ++ [blockToRemove.id])

/-- `find_blocks_to_prune`: the blocks reached from the commit root without
entering `next_root_id`. -/
def findBlocksToPrune (nextRootId : HashValue) : Except Failure (List HashValue) :=
  if nextRootId = t.commitRootId then .ok []
  else do
    let root ← t.linkableRoot
    t.pruneLoop nextRootId (2 ^ t.idToBlock.keys.length) [root] []

/-- `process_pruned_blocks`: the newly pruned ids join the queue, and the
oldest beyond `max_pruned_blocks_in_mem` are removed from the tree. -/
def processPrunedBlocks (newlyPrunedBlocks : List HashValue) : BlockTree :=
  let prunedBlockIds := t.prunedBlockIds ++ newlyPrunedBlocks
  let numBlocksToRemove := prunedBlockIds.length - t.maxPrunedBlocksInMem
  { (prunedBlockIds.take numBlocksToRemove).foldl removeBlock t with
    prunedBlockIds := prunedBlockIds.drop numBlocksToRemove }

/-- The `loop` of `path_from_root_to_block`: parent links are followed until a
block of round at most `root_round`; the blocks passed are collected. -/
def pathLoop (rootRound : ℕ) :
    ℕ → HashValue → List ExecutedBlock → Except Failure (Option (HashValue × List ExecutedBlock))
  | 0, _, _ => .error .diverges
  | fuel + 1, curBlockId, res =>
    match t.getBlock curBlockId with
    | some block =>
      if block.round ≤ rootRound then .ok (some (curBlockId, res))
      else pathLoop rootRound fuel block.parentId (res ++ [block])
    | none => .ok none

/-- `path_from_root_to_block`: the blocks from the root (excluded) to the block
(included), when the block descends from the root. -/
def pathFromRootToBlock (blockId rootId : HashValue) (rootRound : ℕ) :
    Except Failure (Option (List ExecutedBlock)) := do
  match ← t.pathLoop rootRound (t.idToBlock.keys.length + 1) blockId [] with
  | none => .ok none
  | some (curBlockId, res) => .ok (if curBlockId ≠ rootId then none else some res.reverse)

/-- `path_from_ordered_root`. -/
def pathFromOrderedRoot (blockId : HashValue) : Except Failure (Option (List ExecutedBlock)) := do
  let root ← t.orderedRoot
  t.pathFromRootToBlock blockId t.orderedRootId root.round

/-- `commit_callback`: prune up to the last committed block, then record the
commit proof. The result of `storage.prune_tree` is only logged. -/
def commitCallback (blocksToCommit : List ExecutedBlock) (commitProof : LedgerInfoWithSignatures) :
    Except Failure BlockTree := do
  let blockToCommit ← expect "called Option::unwrap() on a None value" blocksToCommit.getLast?
  let _ ← t.commitRoot
  let idToRemove ← t.findBlocksToPrune blockToCommit.id
  (t.processPrunedBlocks idToRemove).updateHighestLedgerInfo commitProof

end BlockTree

/-! ### The requests of the block store -/

/-- A request to the block store, with what its environment answers: the state
computer's result for a block, and whether the write to persistent storage or
the commit succeeds. -/
inductive Request where
  /-- `execute_and_insert_block`. -/
  | executeAndInsertBlock (block : Block) (execution : Except String StateComputeResult)
      (saved : Except String Unit)
  /-- `insert_single_quorum_cert`. -/
  | insertSingleQuorumCert (qc : QuorumCert) (saved : Except String Unit)
  /-- `insert_timeout_certificate`. -/
  | insertTimeoutCertificate (tc : TimeoutCertificate) (saved : Except String Unit)
  /-- `insert_2chain_timeout_certificate`. -/
  | insert2chainTimeoutCertificate (tc : TwoChainTimeoutCertificate) (saved : Except String Unit)
  /-- `commit`. -/
  | commit (finalityProof : LedgerInfoWithSignatures) (committed : Except String Unit)

namespace BlockStore

variable (t : BlockTree)

/-- `execute_and_insert_block`. -/
def executeAndInsertBlock (block : Block) (execution : Except String StateComputeResult)
    (saved : Except String Unit) : Except Failure (ExecutedBlock × BlockTree) :=
  match t.getBlock block.id with
  | some existingBlock => .ok (existingBlock, t)
  | none => do
    let root ← t.orderedRoot
    if ¬ root.round < block.round then .error (.error "Block with old round")
    else match execution with
      | .error message => .error (.error message)
      | .ok stateComputeResult =>
        match saved with
        | .error _ => .error (.error "Insert block failed when saving block")
        | .ok () => t.insertBlock ⟨block, stateComputeResult⟩

/-- `insert_single_quorum_cert`. -/
def insertSingleQuorumCert (qc : QuorumCert) (saved : Except String Unit) : Except Failure BlockTree :=
  match t.getBlock qc.certifiedBlock.id with
  | none => .error (.error "Insert without having the block in store first")
  | some executedBlock =>
    if ¬ executedBlock.blockInfo.matchOrderedOnly qc.certifiedBlock then
      .error (.error "QC for block has different than local")
    else match saved with
      | .error _ => .error (.error "Insert block failed when saving quorum")
      | .ok () => t.insertQuorumCert qc

/-- `insert_timeout_certificate`: the round the incoming certificate must
exceed is read from `highest_2chain_timeout_cert`. -/
def insertTimeoutCertificate (tc : TimeoutCertificate) (saved : Except String Unit) : Except Failure BlockTree :=
  let curTcRound := (t.highest2chainTimeoutCert.map (·.round)).getD 0
  if tc.round ≤ curTcRound then .ok t
  else match saved with
    | .error _ => .error (.error "Timeout certificate insert failed when persisting to DB")
    | .ok () => .ok (t.replaceTimeoutCert tc)

/-- `insert_2chain_timeout_certificate`. -/
def insert2chainTimeoutCertificate (tc : TwoChainTimeoutCertificate) (saved : Except String Unit) :
    Except Failure BlockTree :=
  let curTcRound := (t.highest2chainTimeoutCert.map (·.round)).getD 0
  if tc.round ≤ curTcRound then .ok t
  else match saved with
    | .error _ => .error (.error "Timeout certificate insert failed when persisting to DB")
    | .ok () => .ok (t.replace2chainTimeoutCert tc)

/-- `commit`: the path from the ordered root to the committed block is
committed, the callback prunes the tree, and the ordered root moves. -/
def commit (finalityProof : LedgerInfoWithSignatures) (committed : Except String Unit) : Except Failure BlockTree :=
  let blockIdToCommit := finalityProof.commitInfo.id
  match t.getBlock blockIdToCommit with
  | none => .error (.error "Committed block id not found")
  | some blockToCommit => do
    let root ← t.orderedRoot
    if ¬ blockToCommit.round > root.round then .error (.error "Committed block round lower than root")
    else do
      let blocksToCommit := (← t.pathFromOrderedRoot blockIdToCommit).getD []
      if blocksToCommit = [] then .error (.panic "assertion failed: !blocks_to_commit.is_empty()")
      else match committed with
        | .error _ => .error (.panic "Failed to persist commit")
        | .ok () => do
          let t ← t.commitCallback blocksToCommit finalityProof
          t.updateOrderedRoot blockToCommit.id

/-- What a request does to the tree: the new tree, or the failure. -/
def apply : Request → Except Failure BlockTree
  | .executeAndInsertBlock block execution saved => (executeAndInsertBlock t block execution saved).map (·.2)
  | .insertSingleQuorumCert qc saved => insertSingleQuorumCert t qc saved
  | .insertTimeoutCertificate tc saved => insertTimeoutCertificate t tc saved
  | .insert2chainTimeoutCertificate tc saved => insert2chainTimeoutCertificate t tc saved
  | .commit finalityProof committed => commit t finalityProof committed

/-- One request: its answer, and the tree afterwards, unchanged on a failure. -/
def step (t : BlockTree) (r : Request) : Except Failure Unit × BlockTree :=
  match apply t r with
  | .ok t' => (.ok (), t')
  | .error e => (.error e, t)

end BlockStore

end Consensus

end Diem
