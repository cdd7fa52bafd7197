import Diem.Move.FileFormat
import Diem.Theory.OrdMap
import Mathlib.Data.Nat.Basic

/-!
# The control-flow graph of a function

`language/move-binary-format/src/control_flow_graph.rs`: the basic blocks of a
code unit. A block starts at offset `0`, at every jump target and after every
branch; it ends at the instruction before the next start or at the last
instruction. The `BTreeMap` and `BTreeSet` of the Rust are `OrdMap`s, so the
blocks come in increasing order of their first offset, as `blocks()` returns
them.
-/

namespace Diem.Move

/-- `BasicBlock`. -/
structure BasicBlock where
  /-- The first offset. -/
  entry : ℕ
  /-- The last offset. -/
  exit : ℕ
  /-- The blocks control may go to next. -/
  successors : List ℕ

/-- `VMControlFlowGraph`: the basic blocks by their first offset. -/
structure VMControlFlowGraph where
  /-- The blocks. -/
  blocks : OrdMap ℕ BasicBlock

namespace VMControlFlowGraph

/-- `record_block_ids`: a jump target starts a block, and so does the
instruction after a branch. -/
def recordBlockIds (pc : ℕ) (code : List Bytecode) (blockIds : OrdMap ℕ Unit) : OrdMap ℕ Unit :=
  match code[pc]? with
  | none => blockIds
  | some bytecode =>
    let blockIds := match bytecode.offset with
      | some offset => blockIds.insert offset ()
      | none => blockIds
    if bytecode.isBranch && pc + 1 < code.length then blockIds.insert (pc + 1) () else blockIds

/-- `is_end_of_block`. -/
def isEndOfBlock (pc : ℕ) (code : List Bytecode) (blockIds : OrdMap ℕ Unit) : Bool :=
  pc + 1 == code.length || (blockIds.find? (pc + 1)).isSome

/-- The loop of `new` that cuts the code into blocks, from the block starting
at `entry`. -/
def cutBlocks (code : List Bytecode) (blockIds : OrdMap ℕ Unit) :
    List ℕ → OrdMap ℕ BasicBlock × ℕ → OrdMap ℕ BasicBlock × ℕ
  | [], acc => acc
  | pc :: pcs, (blocks, entry) =>
    if isEndOfBlock pc code blockIds then
      cutBlocks code blockIds pcs (blocks.insert entry ⟨entry, pc, Bytecode.getSuccessors pc code⟩, pc + 1)
    else cutBlocks code blockIds pcs (blocks, entry)

/-- `VMControlFlowGraph::new`. -/
def new (code : List Bytecode) : VMControlFlowGraph :=
  let blockIds := (List.range code.length).foldl (fun ids pc => recordBlockIds pc code ids)
    ((∅ : OrdMap ℕ Unit).insert 0 ())
  ⟨(cutBlocks code blockIds (List.range code.length) (∅, 0)).1⟩

/-- `blocks()`: the block ids, in increasing order. -/
def blockIds (cfg : VMControlFlowGraph) : List ℕ := cfg.blocks.keys

end VMControlFlowGraph

end Diem.Move
