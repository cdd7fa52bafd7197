import Diem.Move.ReferenceSafety.AbstractState
import Diem.Move.StackUsageVerifier

/-!
# Reference safety

`language/bytecode-verifier/src/reference_safety/mod.rs`: the transfer function
of the reference-safety pass, and the pass itself, which runs the abstract
interpreter from `AbstractState::new` and reports the first block that failed.

The pass keeps its operand stack of abstract values in `self`, so the stack is
the `Aux` of the analysis: it persists from one block to the next, also after a
block fails. `stack.pop().unwrap()` on an empty stack, `ref_id().unwrap()` on a
value and the `checked_verify!`s are crashes. The module tables the pass reads
come from a `BinaryIndexedView`, which extends the `Resolver` of the stack-usage
pass with the signatures, acquires lists and instantiations it reads.

**`verify_swapFunction`**: a function with two `&mut u64` parameters that stores
each into the other's local and then jumps to a `Ret` makes the pass panic. At
the jump, `construct_canonical_state` renames id `1` to `0` and id `0` to `1`,
one pair at a time, so the first move overwrites reference `1` and no reference
`1` is left (`canonical_swapBlock`); the `Ret` of the next block then releases
reference `1`, which unwraps nothing.
-/

namespace Diem.Move

/-- What reference safety reads of the module through `BinaryIndexedView`. -/
structure BinaryIndexedView extends Resolver where
  /-- The parameter types of a function handle. -/
  functionParameters : ℕ → List SignatureToken
  /-- The return types of a function handle. -/
  functionReturns : ℕ → List SignatureToken
  /-- The resources a call of a function handle acquires: those of the
  definition of the same name when its handle is this one, and none when there
  is no such definition; the error of `function_def_at`. -/
  acquiredResources : ℕ → Except PartialVMError (OrdMap ℕ Unit)
  /-- The field handle of a field instantiation, or the error of
  `field_instantiation_at`. -/
  fieldInstantiationHandle : ℕ → Except PartialVMError ℕ
  /-- The type of a constant. -/
  constantType : ℕ → SignatureToken
  /-- The types of a signature. -/
  signature : ℕ → List SignatureToken
  /-- The counts the stack-usage pass reads are those of the signatures. -/
  functionHandle_eq : ∀ idx, functionHandle idx = ((functionParameters idx).length, (functionReturns idx).length)

namespace ReferenceSafety

/-- The state of the transfer function: the operand stack, top first, and the
abstract state. -/
abbrev St := List AbstractValue × AbstractState

/-- `stack.pop().unwrap()`. -/
def pop : EStateM Fault St AbstractValue := do
  let (stack, state) ← get
  match stack with
  | v :: rest => do
    set (rest, state)
    pure v
  | [] => throw .crash

/-- `stack.push`. -/
def push (v : AbstractValue) : EStateM Fault St Unit := modify fun st => (v :: st.1, st.2)

/-- `checked_verify!(stack.pop().unwrap().is_value())`. -/
def popValue : EStateM Fault St Unit := do
  let v ← pop
  checkedVerify v.isValue

/-- `stack.pop().unwrap().ref_id().unwrap()`. -/
def popRefId : EStateM Fault St ℕ := do
  let v ← pop
  unwrap v.refId

/-- Pop `n` values: the last `n` pushed, in the order they were pushed. -/
def popN (n : ℕ) : EStateM Fault St (List AbstractValue) := do
  let values ← (List.range n).mapM fun _ => pop
  pure values.reverse

/-- A method of the abstract state. -/
def onState {α : Type} (x : EStateM Fault AbstractState α) : EStateM Fault St α :=
  EStateM.zoom Prod.snd (fun st s => (st.1, s)) x

/-- `vec_element_type`. -/
def vecElementType (view : BinaryIndexedView) (idx : ℕ) : EStateM Fault St SignatureToken :=
  match (view.signature idx).head? with
  | some ty => pure ty
  | none => throw (.error ⟨.VERIFIER_INVARIANT_VIOLATION, none⟩)

/-- `call`: pop the arguments, find the acquired resources, and push what the
abstract state returns. -/
def call (view : BinaryIndexedView) (offset handle : ℕ) : EStateM Fault St Unit := do
  let arguments ← popN (view.functionParameters handle).length
  let acquiredResources ← liftVM (view.acquiredResources handle)
  let values ← onState (AbstractState.call offset arguments acquiredResources (view.functionReturns handle))
  values.forM push

/-- `execute_inner`: one instruction, at `offset`, of a function returning
`returnCount` values. -/
def executeInner (view : BinaryIndexedView) (returnCount : ℕ) : Bytecode → ℕ → EStateM Fault St Unit
  | .Pop, _ => do
    let v ← pop
    onState (AbstractState.releaseValue v)
  | .CopyLoc idx, offset => do
    let v ← onState (AbstractState.copyLoc offset idx)
    push v
  | .MoveLoc idx, offset => do
    let v ← onState (AbstractState.moveLoc offset idx)
    push v
  | .StLoc idx, offset => do
    let v ← pop
    onState (AbstractState.stLoc offset idx v)
  | .FreezeRef, offset => do
    let id ← popRefId
    let v ← onState (AbstractState.freezeRef offset id)
    push v
  | .Eq, offset | .Neq, offset => do
    let v1 ← pop
    let v2 ← pop
    let v ← onState (AbstractState.comparison offset v1 v2)
    push v
  | .ReadRef, offset => do
    let id ← popRefId
    let v ← onState (AbstractState.readRef offset id)
    push v
  | .WriteRef, offset => do
    let id ← popRefId
    popValue
    onState (AbstractState.writeRef offset id)
  | .MutBorrowLoc idx, offset => do
    let v ← onState (AbstractState.borrowLoc offset true idx)
    push v
  | .ImmBorrowLoc idx, offset => do
    let v ← onState (AbstractState.borrowLoc offset false idx)
    push v
  | .MutBorrowField idx, offset => do
    let id ← popRefId
    let v ← onState (AbstractState.borrowField offset true id idx)
    push v
  | .MutBorrowFieldGeneric idx, offset => do
    let handle ← liftVM (view.fieldInstantiationHandle idx)
    let id ← popRefId
    let v ← onState (AbstractState.borrowField offset true id handle)
    push v
  | .ImmBorrowField idx, offset => do
    let id ← popRefId
    let v ← onState (AbstractState.borrowField offset false id idx)
    push v
  | .ImmBorrowFieldGeneric idx, offset => do
    let handle ← liftVM (view.fieldInstantiationHandle idx)
    let id ← popRefId
    let v ← onState (AbstractState.borrowField offset false id handle)
    push v
  | .MutBorrowGlobal idx, offset => do
    popValue
    let v ← onState (AbstractState.borrowGlobal offset true idx)
    push v
  | .MutBorrowGlobalGeneric idx, offset => do
    popValue
    let structDef ← liftVM (view.structInstantiationDef idx)
    let v ← onState (AbstractState.borrowGlobal offset true structDef)
    push v
  | .ImmBorrowGlobal idx, offset => do
    popValue
    let v ← onState (AbstractState.borrowGlobal offset false idx)
    push v
  | .ImmBorrowGlobalGeneric idx, offset => do
    popValue
    let structDef ← liftVM (view.structInstantiationDef idx)
    let v ← onState (AbstractState.borrowGlobal offset false structDef)
    push v
  | .MoveFrom idx, offset => do
    popValue
    let v ← onState (AbstractState.moveFrom offset idx)
    push v
  | .MoveFromGeneric idx, offset => do
    popValue
    let structDef ← liftVM (view.structInstantiationDef idx)
    let v ← onState (AbstractState.moveFrom offset structDef)
    push v
  | .Call idx, offset => call view offset idx
  | .CallGeneric idx, offset => call view offset (view.functionInstantiationHandle idx)
  | .Ret, offset => do
    let returnValues ← popN returnCount
    onState (AbstractState.ret offset returnValues)
  | .Branch _, _ | .Nop, _ | .CastU8, _ | .CastU64, _ | .CastU128, _ | .Not, _ | .Exists _, _
  | .ExistsGeneric _, _ => pure ()
  | .BrTrue _, _ | .BrFalse _, _ | .Abort, _ => popValue
  | .MoveTo _, _ | .MoveToGeneric _, _ => do
    popValue
    let v ← pop
    onState (AbstractState.releaseValue v)
  | .LdTrue, _ | .LdFalse, _ => do
    let v ← onState (AbstractState.valueFor .bool)
    push v
  | .LdU8 _, _ => do
    let v ← onState (AbstractState.valueFor .u8)
    push v
  | .LdU64 _, _ => do
    let v ← onState (AbstractState.valueFor .u64)
    push v
  | .LdU128 _, _ => do
    let v ← onState (AbstractState.valueFor .u128)
    push v
  | .LdConst idx, _ => do
    let v ← onState (AbstractState.valueFor (view.constantType idx))
    push v
  | .Add, _ | .Sub, _ | .Mul, _ | .Mod, _ | .Div, _ | .BitOr, _ | .BitAnd, _ | .Xor, _ | .Shl, _
  | .Shr, _ | .Or, _ | .And, _ | .Lt, _ | .Gt, _ | .Le, _ | .Ge, _ => do
    popValue
    popValue
    push .NonReference
  | .Pack idx, _ => do
    let fieldCount ← liftVM (view.structDefFieldCount idx)
    (List.range fieldCount).forM fun _ => popValue
    push .NonReference
  | .PackGeneric idx, _ => do
    let structDef ← liftVM (view.structInstantiationDef idx)
    let fieldCount ← liftVM (view.structDefFieldCount structDef)
    (List.range fieldCount).forM fun _ => popValue
    push .NonReference
  | .Unpack idx, _ => do
    let fieldCount ← liftVM (view.structDefFieldCount idx)
    popValue
    (List.range fieldCount).forM fun _ => push .NonReference
  | .UnpackGeneric idx, _ => do
    let structDef ← liftVM (view.structInstantiationDef idx)
    let fieldCount ← liftVM (view.structDefFieldCount structDef)
    popValue
    (List.range fieldCount).forM fun _ => push .NonReference
  | .VecPack idx num, _ => do
    (List.range num).forM fun _ => popValue
    let elementType ← vecElementType view idx
    let v ← onState (AbstractState.valueFor (.vector elementType))
    push v
  | .VecLen _, offset => do
    let vecRef ← pop
    onState (AbstractState.vectorOp offset vecRef false)
    let v ← onState (AbstractState.valueFor .u64)
    push v
  | .VecImmBorrow _, offset => do
    popValue
    let vecRef ← pop
    let elemRef ← onState (AbstractState.vectorElementBorrow offset vecRef false)
    push elemRef
  | .VecMutBorrow _, offset => do
    popValue
    let vecRef ← pop
    let elemRef ← onState (AbstractState.vectorElementBorrow offset vecRef true)
    push elemRef
  | .VecPushBack _, offset => do
    popValue
    let vecRef ← pop
    onState (AbstractState.vectorOp offset vecRef true)
  | .VecPopBack idx, offset => do
    let vecRef ← pop
    onState (AbstractState.vectorOp offset vecRef true)
    let elementType ← vecElementType view idx
    let v ← onState (AbstractState.valueFor elementType)
    push v
  | .VecUnpack idx num, _ => do
    popValue
    let elementType ← vecElementType view idx
    (List.range num).forM fun _ => do
      let v ← onState (AbstractState.valueFor elementType)
      push v
  | .VecSwap _, offset => do
    popValue
    popValue
    let vecRef ← pop
    onState (AbstractState.vectorOp offset vecRef true)

/-- `execute`: the instruction, and at the end of its block (with the stack
empty) the canonical state. -/
def execute (view : BinaryIndexedView) (returnCount : ℕ) (bytecode : Bytecode) (index lastIndex : ℕ) :
    EStateM Fault St Unit := do
  executeInner view returnCount bytecode index
  if index = lastIndex then do
    let (stack, state) ← get
    checkedVerify stack.isEmpty
    set (stack, state.constructCanonicalState)

/-- The reference-safety analysis of a function returning `returnCount` values. -/
def analysis (view : BinaryIndexedView) (returnCount : ℕ) : Analysis (List AbstractValue) AbstractState :=
  ⟨execute view returnCount, AbstractState.join⟩

/-- `verify`: the first block whose analysis failed, in block order, or `Ok`;
`none` when the fuel runs out. -/
def verify (view : BinaryIndexedView) (fv : FunctionView) (fuel : ℕ) : Option (Except Fault Unit) :=
  match AbstractState.new fv with
  | none => some (.error .crash)
  | some initialState =>
    match (analysis view fv.returns.length).analyzeFunction fuel initialState [] fv.code with
    | none => none
    | some (.error f) => some (.error f)
    | some (.ok (invMap, _)) => some (invMap.entries.forM fun entry => match entry.2.post with
      | .Error err => .error (.error err)
      | _ => .ok ())

/-- More fuel does not change the verdict once the analysis has ended. -/
theorem verify_add_fuel {view : BinaryIndexedView} {fv : FunctionView} {fuel : ℕ} {r : Except Fault Unit}
    (h : verify view fv fuel = some r) (k : ℕ) : verify view fv (fuel + k) = some r := by
  unfold verify at h ⊢
  cases hnew : AbstractState.new fv with
  | none =>
    simp only [hnew] at h ⊢
    exact h
  | some initialState =>
    simp only [hnew] at h ⊢
    cases hrun : (analysis view fv.returns.length).analyzeFunction fuel initialState [] fv.code with
    | none =>
      rw [hrun] at h
      cases h
    | some result =>
      rw [hrun] at h
      rw [Analysis.analyzeFunction_add_fuel _ hrun k]
      exact h

end ReferenceSafety

/-! ### Swapping two mutable references between locals -/

/-- A module with no tables to read. -/
def emptyView : BinaryIndexedView where
  toResolver := emptyResolver
  functionParameters := fun _ => []
  functionReturns := fun _ => []
  acquiredResources := fun _ => .ok ∅
  fieldInstantiationHandle := fun _ => .ok 0
  constantType := fun _ => .u64
  signature := fun _ => []
  functionHandle_eq := fun _ => rfl

/-- `fun swap(a: &mut u64, b: &mut u64) { let t = a; a = b; b = t; }` as
bytecode: move both references out, store each into the other's local, and
jump to a block that returns. -/
def swapFunction : FunctionView :=
  ⟨some 0, [.mutableReference .u64, .mutableReference .u64], [], [],
    [.MoveLoc 0, .MoveLoc 1, .StLoc 0, .StLoc 1, .Branch 5, .Ret]⟩

/-- The state `AbstractState::new` gives `swapFunction`: reference `i` in local
`i`, and the frame root `2`. -/
def swapEntryState : AbstractState :=
  ⟨some 0, ((∅ : OrdMap ℕ AbstractValue).insert 0 (.Reference 0)).insert 1 (.Reference 1),
    ⟨(((∅ : OrdMap ℕ (Ref Label)).insert 0 (Ref.new true)).insert 1 (Ref.new true)).insert 2 (Ref.new true)⟩, 2, 3⟩

/-- The state at the `Branch` that ends the first block, before it is made
canonical: local `0` holds reference `1` and local `1` reference `0`. -/
def swapBlockState : AbstractState := { swapEntryState with
  locals := ((∅ : OrdMap ℕ AbstractValue).insert 0 (.Reference 1)).insert 1 (.Reference 0) }

/-- **Canonicalization loses a reference**: the first block of `swapFunction`
ends in `swapBlockState`. Renamed simultaneously, its graph keeps references
`0`, `1` and the frame root `2`; `construct_canonical_state` keeps only `0` and
`2`, while local `1` holds reference `1`. -/
theorem canonical_swapBlock :
    AbstractState.new swapFunction = some swapEntryState ∧
    ((ReferenceSafety.analysis emptyView 0).executeBlock swapFunction.code ⟨0, 4, [5]⟩).run ([], swapEntryState) =
      .ok () ([], swapBlockState.constructCanonicalState) ∧
    (swapBlockState.borrowGraph.rename (OrdMap.renameKey swapBlockState.canonicalIdMap.1)).refs.keys = [0, 1, 2] ∧
    swapBlockState.constructCanonicalState.borrowGraph.refs.keys = [0, 2] ∧
    swapBlockState.constructCanonicalState.locals.find? 1 = some (.Reference 1) := by
  refine ⟨rfl, rfl, ?_, ?_, ?_⟩ <;> decide

/-- **The reference-safety pass panics on `swapFunction`**, with any fuel that
lets it analyse the two blocks: the `Ret` releases reference `1`, which
canonicalization lost. -/
theorem verify_swapFunction (k : ℕ) :
    ReferenceSafety.verify emptyView swapFunction (2 + k) = some (.error .crash) :=
  ReferenceSafety.verify_add_fuel (by decide +kernel) k

end Diem.Move
