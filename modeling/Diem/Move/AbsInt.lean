import Diem.Move.ControlFlowGraph
import Diem.Theory.Hoare

/-!
# The abstract interpreter of the bytecode verifier

`language/bytecode-verifier/src/absint.rs`: the worklist algorithm that the
locals-safety and reference-safety passes run over the basic blocks of a
function. Each block is run from its recorded precondition; on success its
postcondition is joined into the precondition of each successor, and a successor
whose precondition changed is pushed on the worklist. A block whose analysis
fails records the error and propagates nothing.

An `Analysis` is its transfer function and the join of its domain. The transfer
function runs in `EStateM Fault (Aux × State)`: `Aux` is the analysis's own
`&mut self` data, such as the operand stack of reference safety, which keeps
what an instruction did to it even when the instruction fails. A `Fault` is a
verification error, which ends the block, or a crash, which ends the verifier.
The worklist is a list used as the `Vec` stack.

The Rust loop runs until the worklist is empty. `analyzeLoop` has a fuel
argument that only bounds the loop (`none` when it runs out), and more fuel
changes nothing once the loop has ended (`analyzeLoop_add_fuel`).
-/

namespace Diem.Move

/-- How a verifier pass stops early: with a verification error, or by
panicking (an `unwrap` of nothing, a failed `assert!` or `checked_verify!`). -/
inductive Fault where
  | error (err : PartialVMError)
  | crash
  deriving DecidableEq, Repr

section Helpers

variable {σ α : Type}

/-- `unwrap`: panic on nothing. -/
def unwrap (o : Option α) : EStateM Fault σ α :=
  match o with
  | some a => pure a
  | none => throw .crash

/-- `checked_verify!` and the other checked assertions. -/
def checkedVerify (b : Bool) : EStateM Fault σ Unit := if b then pure () else throw .crash

/-- A fallible read of the module (`?` on a `PartialVMResult`). -/
def liftVM (x : Except PartialVMError α) : EStateM Fault σ α :=
  match x with
  | .ok a => pure a
  | .error e => throw (.error e)

end Helpers

/-- The function a pass verifies: `FunctionView`. -/
structure FunctionView where
  /-- The index of its definition. -/
  index : Option ℕ
  /-- The parameter types. -/
  parameters : List SignatureToken
  /-- The types of the other locals. -/
  locals : List SignatureToken
  /-- The return types. -/
  returns : List SignatureToken
  /-- The code. -/
  code : List Bytecode

/-- `JoinResult`. -/
inductive JoinResult where
  | Changed
  | Unchanged
  deriving DecidableEq, Repr

/-- `BlockPostcondition`. -/
inductive BlockPostcondition where
  | Unprocessed
  | Success
  | Error (err : PartialVMError)
  deriving DecidableEq, Repr

/-- `BlockInvariant`: the precondition of a block and what its analysis gave. -/
structure BlockInvariant (State : Type) where
  /-- The precondition. -/
  pre : State
  /-- The postcondition. -/
  post : BlockPostcondition

/-- `InvariantMap`. -/
abbrev InvariantMap (State : Type) := OrdMap ℕ (BlockInvariant State)

/-- An analysis: `TransferFunctions::execute` and `AbstractDomain::join`. -/
structure Analysis (Aux State : Type) where
  /-- `execute`: one instruction, at `index` of a block whose last offset is
  `lastIndex`. -/
  execute : Bytecode → ℕ → ℕ → EStateM Fault (Aux × State) Unit
  /-- `join`: the precondition joined with a postcondition, and whether it
  changed; `none` when the join panics. -/
  join : State → State → Option (JoinResult × State)

namespace Analysis

variable {Aux State : Type} (a : Analysis Aux State)

/-- The body of the loop of `execute_block`: the instruction at `offset`
(indexing `code` out of range panics). -/
def executeOffset (code : List Bytecode) (lastIndex offset : ℕ) : EStateM Fault (Aux × State) Unit :=
  match code[offset]? with
  | some instr => a.execute instr offset lastIndex
  | none => throw .crash

/-- `execute_block`: the instructions of a block, each from the state the one
before left. -/
def executeBlock (code : List Bytecode) (block : BasicBlock) : EStateM Fault (Aux × State) Unit :=
  (List.range' block.entry (block.exit + 1 - block.entry)).forM (a.executeOffset code block.exit)

/-- One successor in the loop of `analyze_function` over the successors of a
block: join the postcondition into its precondition if it has been seen, and
push it if that changed it; record it with the postcondition as its
precondition if not, and push it. -/
def propagateOne (post : State) (acc : InvariantMap State × List ℕ) (next : ℕ) :
    Option (InvariantMap State × List ℕ) :=
  match acc.1.find? next with
  | some inv => do
    let (result, joined) ← a.join inv.pre post
    match result with
    | .Unchanged => pure acc
    | .Changed => pure (acc.1.insert next { inv with pre := joined }, next :: acc.2)
  | none => pure (acc.1.insert next ⟨post, .Success⟩, next :: acc.2)

/-- The loop of `analyze_function` over the successors of a block. -/
def propagate (post : State) (successors : List ℕ) (invMap : InvariantMap State) (workList : List ℕ) :
    Option (InvariantMap State × List ℕ) :=
  successors.foldlM (a.propagateOne post) (invMap, workList)

/-- The `while let Some(block_id) = work_list.pop()` loop of
`analyze_function`, for at most `fuel` rounds. -/
def analyzeLoop (cfg : VMControlFlowGraph) (code : List Bytecode) :
    ℕ → List ℕ → InvariantMap State → Aux → Option (Except Fault (InvariantMap State × Aux))
  | 0, _, _, _ => none
  | _ + 1, [], invMap, aux => some (.ok (invMap, aux))
  | fuel + 1, blockId :: workList, invMap, aux =>
    match invMap.find? blockId, cfg.blocks.find? blockId with
    | some inv, some block =>
      match (a.executeBlock code block).run (aux, inv.pre) with
      | .error .crash _ => some (.error .crash)
      | .error (.error e) (aux, _) =>
        analyzeLoop cfg code fuel workList (invMap.insert blockId { inv with post := .Error e }) aux
      | .ok () (aux, post) =>
        match a.propagate post block.successors (invMap.insert blockId { inv with post := .Success }) workList with
        | some (invMap, workList) => analyzeLoop cfg code fuel workList invMap aux
        | none => some (.error .crash)
    | _, _ => some (.error .crash)

/-- `analyze_function`: the block invariants from the entry block, the block
starting at offset `0`. -/
def analyzeFunction (fuel : ℕ) (initialState : State) (aux : Aux) (code : List Bytecode) :
    Option (Except Fault (InvariantMap State × Aux)) :=
  a.analyzeLoop (VMControlFlowGraph.new code) code fuel [0] ((∅ : InvariantMap State).insert 0 ⟨initialState, .Unprocessed⟩) aux

/-- **Fuel only bounds the loop**: once it has ended, more fuel gives the same
result. -/
theorem analyzeLoop_add_fuel (cfg : VMControlFlowGraph) (code : List Bytecode) (k : ℕ) :
    ∀ (fuel : ℕ) (workList : List ℕ) (invMap : InvariantMap State) (aux : Aux) r,
      a.analyzeLoop cfg code fuel workList invMap aux = some r →
        a.analyzeLoop cfg code (fuel + k) workList invMap aux = some r := by
  intro fuel
  induction fuel with
  | zero => intro _ _ _ _ h; cases h
  | succ fuel ih =>
    intro workList invMap aux r h
    rw [Nat.add_right_comm]
    cases workList with
    | nil => exact h
    | cons blockId workList =>
      -- one round is the same with either fuel; only the recursive calls differ
      simp only [analyzeLoop] at h ⊢
      rcases hinv : invMap.find? blockId with _ | inv <;> rcases hblock : cfg.blocks.find? blockId with _ | block <;>
        simp only [hinv, hblock] at h ⊢
      · exact h
      · exact h
      · exact h
      rcases hrun : (a.executeBlock code block).run (aux, inv.pre) with ⟨u, aux', post⟩ | ⟨_ | e, aux', post⟩ <;>
        simp only [hrun] at h ⊢
      · rcases hprop : a.propagate post block.successors (invMap.insert blockId { inv with post := .Success }) workList
          with _ | ⟨invMap', workList'⟩ <;> simp only [hprop] at h ⊢
        · exact h
        · exact ih _ _ _ _ h
      · exact ih _ _ _ _ h
      · exact h

theorem analyzeFunction_add_fuel {fuel : ℕ} {initialState : State} {aux : Aux} {code : List Bytecode} {r}
    (h : a.analyzeFunction fuel initialState aux code = some r) (k : ℕ) :
    a.analyzeFunction (fuel + k) initialState aux code = some r :=
  a.analyzeLoop_add_fuel _ _ k _ _ _ _ _ h

end Analysis

end Diem.Move
