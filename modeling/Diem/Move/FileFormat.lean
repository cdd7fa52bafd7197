import Mathlib

/-!
# The Move bytecode

`language/move-binary-format/src/file_format.rs`: the instructions of Move
bytecode, the types of its signatures, and what the control flow of one
instruction is. Table indices, local indices and code offsets are numbers, in
bounds once the bounds checker has run, and the `u64` operand of `VecPack` and
`VecUnpack` is a number below `2 ^ 64`. Constants and identifiers are left out,
since no modelled function reads them; of an ability set only `drop` is kept,
and of the status codes those the modelled passes return.
-/

namespace Diem.Move

/-- `SignatureToken`: the type of a value. -/
inductive SignatureToken where
  | bool
  | u8
  | u64
  | u128
  | address
  | signer
  | vector (elem : SignatureToken)
  | struct (handle : ℕ)
  | structInstantiation (handle : ℕ) (typeArguments : List SignatureToken)
  | reference (inner : SignatureToken)
  | mutableReference (inner : SignatureToken)
  | typeParameter (idx : ℕ)
  deriving Repr

namespace SignatureToken

/-- `is_reference`. -/
def isReference : SignatureToken → Bool
  | reference _ | mutableReference _ => true
  | _ => false

/-- `is_mutable_reference`. -/
def isMutableReference : SignatureToken → Bool
  | mutableReference _ => true
  | _ => false

end SignatureToken

/-- `AbilitySet`, reduced to the ability the modelled passes read. -/
structure AbilitySet where
  /-- `has_drop`. -/
  hasDrop : Bool
  deriving DecidableEq, Repr

/-- `Bytecode`: one instruction. -/
inductive Bytecode where
  | Pop
  | Ret
  | BrTrue (offset : ℕ)
  | BrFalse (offset : ℕ)
  | Branch (offset : ℕ)
  | LdU8 (value : ℕ)
  | LdU64 (value : ℕ)
  | LdU128 (value : ℕ)
  | CastU8
  | CastU64
  | CastU128
  | LdConst (idx : ℕ)
  | LdTrue
  | LdFalse
  | CopyLoc (idx : ℕ)
  | MoveLoc (idx : ℕ)
  | StLoc (idx : ℕ)
  | Call (idx : ℕ)
  | CallGeneric (idx : ℕ)
  | Pack (idx : ℕ)
  | PackGeneric (idx : ℕ)
  | Unpack (idx : ℕ)
  | UnpackGeneric (idx : ℕ)
  | ReadRef
  | WriteRef
  | FreezeRef
  | MutBorrowLoc (idx : ℕ)
  | ImmBorrowLoc (idx : ℕ)
  | MutBorrowField (idx : ℕ)
  | MutBorrowFieldGeneric (idx : ℕ)
  | ImmBorrowField (idx : ℕ)
  | ImmBorrowFieldGeneric (idx : ℕ)
  | MutBorrowGlobal (idx : ℕ)
  | MutBorrowGlobalGeneric (idx : ℕ)
  | ImmBorrowGlobal (idx : ℕ)
  | ImmBorrowGlobalGeneric (idx : ℕ)
  | Add
  | Sub
  | Mul
  | Mod
  | Div
  | BitOr
  | BitAnd
  | Xor
  | Or
  | And
  | Not
  | Eq
  | Neq
  | Lt
  | Gt
  | Le
  | Ge
  | Abort
  | Nop
  | Exists (idx : ℕ)
  | ExistsGeneric (idx : ℕ)
  | MoveFrom (idx : ℕ)
  | MoveFromGeneric (idx : ℕ)
  | MoveTo (idx : ℕ)
  | MoveToGeneric (idx : ℕ)
  | Shl
  | Shr
  | VecPack (idx : ℕ) (num : ℕ)
  | VecLen (idx : ℕ)
  | VecImmBorrow (idx : ℕ)
  | VecMutBorrow (idx : ℕ)
  | VecPushBack (idx : ℕ)
  | VecPopBack (idx : ℕ)
  | VecUnpack (idx : ℕ) (num : ℕ)
  | VecSwap (idx : ℕ)
  deriving DecidableEq, Repr

namespace Bytecode

/-- `is_unconditional_branch`. -/
def isUnconditionalBranch : Bytecode → Bool
  | Ret | Abort | Branch _ => true
  | _ => false

/-- `is_conditional_branch`. -/
def isConditionalBranch : Bytecode → Bool
  | BrFalse _ | BrTrue _ => true
  | _ => false

/-- `is_branch`. -/
def isBranch (b : Bytecode) : Bool := b.isConditionalBranch || b.isUnconditionalBranch

/-- `offset`: the target of a jump. -/
def offset : Bytecode → Option ℕ
  | BrFalse offset | BrTrue offset | Branch offset => some offset
  | _ => none

/-- `get_successors`: the jump target and the next instruction, in increasing
order, without the next one after an unconditional branch or at the end. -/
def getSuccessors (pc : ℕ) (code : List Bytecode) : List ℕ :=
  match code[pc]? with
  | none => []
  | some bytecode =>
    let v := bytecode.offset.toList
    if pc + 1 ≥ code.length then v
    else
      let v := if !bytecode.isUnconditionalBranch && !v.contains (pc + 1) then v ++ [pc + 1] else v
      match v with
      | [a, b] => if a > b then [b, a] else v
      | _ => v

end Bytecode

/-- `StatusCode`: the verification errors of the modelled passes. -/
inductive StatusCode where
  | NEGATIVE_STACK_SIZE_WITHIN_BLOCK
  | POSITIVE_STACK_SIZE_AT_BLOCK_END
  | STLOC_UNSAFE_TO_DESTROY_ERROR
  | MOVELOC_UNAVAILABLE_ERROR
  | COPYLOC_UNAVAILABLE_ERROR
  | BORROWLOC_UNAVAILABLE_ERROR
  | UNSAFE_RET_UNUSED_VALUES_WITHOUT_DROP
  | COPYLOC_EXISTS_BORROW_ERROR
  | MOVELOC_EXISTS_BORROW_ERROR
  | BORROWLOC_EXISTS_BORROW_ERROR
  | READREF_EXISTS_MUTABLE_BORROW_ERROR
  | WRITEREF_EXISTS_BORROW_ERROR
  | FREEZEREF_EXISTS_MUTABLE_BORROW_ERROR
  | BORROWFIELD_EXISTS_MUTABLE_BORROW_ERROR
  | GLOBAL_REFERENCE_ERROR
  | VEC_UPDATE_EXISTS_MUTABLE_BORROW_ERROR
  | VEC_BORROW_ELEMENT_EXISTS_MUTABLE_BORROW_ERROR
  | CALL_BORROWED_MUTABLE_REFERENCE_ERROR
  | UNSAFE_RET_LOCAL_OR_RESOURCE_STILL_BORROWED
  | RET_BORROWED_MUTABLE_REFERENCE_ERROR
  | VERIFIER_INVARIANT_VIOLATION
  deriving DecidableEq, Repr

/-- `PartialVMError`: a status code, and the offset it was reported at. -/
structure PartialVMError where
  /-- The status code. -/
  majorStatus : StatusCode
  /-- `at_code_offset`. -/
  offset : Option ℕ
  deriving DecidableEq, Repr

end Diem.Move
