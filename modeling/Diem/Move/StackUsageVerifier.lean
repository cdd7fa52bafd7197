import Diem.Move.ControlFlowGraph
import Diem.Theory.Monads

/-!
# Stack usage verification

`language/bytecode-verifier/src/stack_usage_verifier.rs`: every basic block must
leave the operand stack as high as it found it (a block ending in `Ret` must
leave exactly the return values), and must never pop below its entry height.
The check runs each block's instructions over a `u64` counter
`stack_size_increment`.

`instructionEffect` is the Rust table of pops and pushes; the counts it reads
from the module come from a `Resolver`. The counter adds modulo `2 ^ 64`, as in
a release build, and the subtraction is guarded by the check before it.

When the pushes of a block sum to less than `2 ^ 64`, a block the verifier
accepts never pops below its entry height and ends at it
(**`verifyBlock_balanced`**). The height inside a block is not bounded
(`verify_unpackBlock`), and the bound on the pushes is needed: `VecUnpack` takes
its push count from the binary, and the block `VecPack(_, 0); VecUnpack(_,
u64::MAX); VecPack(_, 0); Ret` is accepted while it leaves `2 ^ 64` values on
the stack, the counter having wrapped to `0` (**`verify_wrappedBlock`**).
-/

namespace Diem.Move

/-- The tables `instruction_effect` reads through `BinaryIndexedView`. -/
structure Resolver where
  /-- The numbers of parameters and of return values of a function handle. -/
  functionHandle : ℕ → ℕ × ℕ
  /-- The function handle of a function instantiation. -/
  functionInstantiationHandle : ℕ → ℕ
  /-- The number of fields of a struct definition (`0` for a native one), or
  the error of `struct_def_at`. -/
  structDefFieldCount : ℕ → Except PartialVMError ℕ
  /-- The struct definition of a struct instantiation, or the error of
  `struct_instantiation_at`. -/
  structInstantiationDef : ℕ → Except PartialVMError ℕ

/-- `StackUsageVerifier`: the module, the code and the return signature of one
function. -/
structure StackUsageVerifier where
  /-- The module tables. -/
  resolver : Resolver
  /-- The code unit. -/
  code : List Bytecode
  /-- `return_.len()`. -/
  returnCount : ℕ

namespace StackUsageVerifier

/-- `instruction_effect`: how many values an instruction pops and pushes. -/
def instructionEffect (v : StackUsageVerifier) : Bytecode → Except PartialVMError (ℕ × ℕ)
  | .Pop | .BrTrue _ | .BrFalse _ | .StLoc _ | .Abort => .ok (1, 0)
  | .LdU8 _ | .LdU64 _ | .LdU128 _ | .LdTrue | .LdFalse | .LdConst _ | .CopyLoc _ | .MoveLoc _
  | .MutBorrowLoc _ | .ImmBorrowLoc _ => .ok (0, 1)
  | .Not | .FreezeRef | .ReadRef | .Exists _ | .ExistsGeneric _ | .MutBorrowGlobal _
  | .MutBorrowGlobalGeneric _ | .ImmBorrowGlobal _ | .ImmBorrowGlobalGeneric _ | .MutBorrowField _
  | .MutBorrowFieldGeneric _ | .ImmBorrowField _ | .ImmBorrowFieldGeneric _ | .MoveFrom _
  | .MoveFromGeneric _ | .CastU8 | .CastU64 | .CastU128 | .VecLen _ | .VecPopBack _ => .ok (1, 1)
  | .Add | .Sub | .Mul | .Mod | .Div | .BitOr | .BitAnd | .Xor | .Shl | .Shr | .Or | .And | .Eq | .Neq
  | .Lt | .Gt | .Le | .Ge => .ok (2, 1)
  | .VecPack _ num => .ok (num, 1)
  | .VecUnpack _ num => .ok (1, num)
  | .VecImmBorrow _ | .VecMutBorrow _ => .ok (2, 1)
  | .MoveTo _ | .MoveToGeneric _ | .WriteRef | .VecPushBack _ => .ok (2, 0)
  | .VecSwap _ => .ok (3, 0)
  | .Branch _ | .Nop => .ok (0, 0)
  | .Ret => .ok (v.returnCount, 0)
  | .Call idx => .ok (v.resolver.functionHandle idx)
  | .CallGeneric idx => .ok (v.resolver.functionHandle (v.resolver.functionInstantiationHandle idx))
  | .Pack idx => do
    let fieldCount ← v.resolver.structDefFieldCount idx
    pure (fieldCount, 1)
  | .PackGeneric idx => do
    let structDef ← v.resolver.structInstantiationDef idx
    let fieldCount ← v.resolver.structDefFieldCount structDef
    pure (fieldCount, 1)
  | .Unpack idx => do
    let fieldCount ← v.resolver.structDefFieldCount idx
    pure (1, fieldCount)
  | .UnpackGeneric idx => do
    let structDef ← v.resolver.structInstantiationDef idx
    let fieldCount ← v.resolver.structDefFieldCount structDef
    pure (1, fieldCount)

/-- One instruction of `verify_block`: refuse to pop below the entry height,
then pop and push on the `u64` counter. -/
def step (blockStart : ℕ) (stackSizeIncrement : ℕ) (effect : ℕ × ℕ) : Except PartialVMError ℕ :=
  if stackSizeIncrement < effect.1 then .error ⟨.NEGATIVE_STACK_SIZE_WITHIN_BLOCK, some blockStart⟩
  else .ok ((stackSizeIncrement - effect.1 + effect.2) % 2 ^ 64)

/-- The instructions of a block. -/
def blockCode (v : StackUsageVerifier) (block : BasicBlock) : List Bytecode :=
  (v.code.drop block.entry).take (block.exit + 1 - block.entry)

/-- `verify_block`. -/
def verifyBlock (v : StackUsageVerifier) (block : BasicBlock) : Except PartialVMError Unit := do
  let stackSizeIncrement ← (v.blockCode block).foldlM
    (fun stackSizeIncrement instruction => do
      let effect ← v.instructionEffect instruction
      step block.entry stackSizeIncrement effect) 0
  if stackSizeIncrement = 0 then pure ()
  else throw ⟨.POSITIVE_STACK_SIZE_AT_BLOCK_END, some block.entry⟩

/-- `StackUsageVerifier::verify`: every block of the control-flow graph. -/
def verify (v : StackUsageVerifier) : Except PartialVMError Unit :=
  (VMControlFlowGraph.new v.code).blocks.entries.forM fun entry => v.verifyBlock entry.2

end StackUsageVerifier

/-! ### Heights in exact arithmetic -/

/-- The height of the operand stack over a sequence of instruction effects,
relative to the block's entry height, in exact arithmetic: `none` when an
instruction would pop below the entry. -/
def exactHeight : ℕ → List (ℕ × ℕ) → Option ℕ
  | h, [] => some h
  | h, effect :: rest => if h < effect.1 then none else exactHeight (h - effect.1 + effect.2) rest

/-- The same height kept in a `u64` counter, as `verify_block` keeps it. -/
def wrappedHeight : ℕ → List (ℕ × ℕ) → Option ℕ
  | h, [] => some h
  | h, effect :: rest =>
    if h < effect.1 then none else wrappedHeight ((h - effect.1 + effect.2) % 2 ^ 64) rest

/-- The highest the stack gets over a sequence of effects, relative to the
block's entry height, in exact arithmetic: `none` when an instruction would
pop below the entry. -/
def peakHeight : ℕ → List (ℕ × ℕ) → Option ℕ
  | h, [] => some h
  | h, effect :: rest =>
    if h < effect.1 then none else (peakHeight (h - effect.1 + effect.2) rest).map (max h)

/-- The total of the pushes of a sequence of effects. -/
def totalPushes (effects : List (ℕ × ℕ)) : ℕ := (effects.map Prod.snd).sum

/-- **The counter does not wrap below the bound**: while the entry height and
all the pushes stay below `2 ^ 64`, the `u64` counter is the exact height. -/
theorem wrappedHeight_eq_exactHeight :
    ∀ (effects : List (ℕ × ℕ)) (h : ℕ), h + totalPushes effects < 2 ^ 64 →
      wrappedHeight h effects = exactHeight h effects := by
  intro effects
  induction effects with
  | nil => intro h _; rfl
  | cons effect rest ih =>
    intro h hbound
    have hpush : h + (effect.2 + totalPushes rest) < 2 ^ 64 := by
      simpa [totalPushes] using hbound
    by_cases hpop : h < effect.1
    · simp [wrappedHeight, exactHeight, hpop]
    · have hlt : h - effect.1 + effect.2 < 2 ^ 64 := by omega
      simp only [wrappedHeight, exactHeight, hpop, ↓reduceIte, Nat.mod_eq_of_lt hlt]
      apply ih
      omega

namespace StackUsageVerifier

variable {v : StackUsageVerifier}

/-- The effects of the instructions of a block. -/
def blockEffects (v : StackUsageVerifier) (block : BasicBlock) : Except PartialVMError (List (ℕ × ℕ)) :=
  (v.blockCode block).mapM v.instructionEffect

theorem step_eq_ok {blockStart h h' : ℕ} {effect : ℕ × ℕ} (hs : step blockStart h effect = .ok h') :
    ¬h < effect.1 ∧ h' = (h - effect.1 + effect.2) % 2 ^ 64 := by
  unfold step at hs
  split_ifs at hs with hlt
  cases hs
  exact ⟨hlt, rfl⟩

/-- The loop of `verify_block` over a list of instructions: when it succeeds,
every instruction has its effect, and the counter ends at the wrapped height. -/
theorem foldlM_step_eq_ok {blockStart : ℕ} :
    ∀ (l : List Bytecode) (h h' : ℕ),
      l.foldlM (fun stackSizeIncrement instruction => do
          let effect ← v.instructionEffect instruction
          step blockStart stackSizeIncrement effect) h = .ok h' →
        ∃ effects, l.mapM v.instructionEffect = .ok effects ∧ wrappedHeight h effects = some h' := by
  intro l
  induction l with
  | nil =>
    intro h h' hl
    cases hl
    exact ⟨[], rfl, rfl⟩
  | cons instruction rest ih =>
    intro h h' hl
    rw [List.foldlM_cons] at hl
    obtain ⟨h₁, hstep, hrest⟩ := Except.bind_eq_ok.1 hl
    obtain ⟨effect, heffect, hs⟩ := Except.bind_eq_ok.1 hstep
    obtain ⟨hpop, rfl⟩ := step_eq_ok hs
    obtain ⟨effects, hmap, hheight⟩ := ih _ _ hrest
    refine ⟨effect :: effects, ?_, ?_⟩
    · simp [List.mapM_cons, heffect, hmap]
    · simpa [wrappedHeight, hpop] using hheight

/-- What an accepted block is: its instructions have effects, and the `u64`
counter over them never goes below zero and ends at zero. -/
theorem verifyBlock_eq_ok {block : BasicBlock} (h : v.verifyBlock block = .ok ()) :
    ∃ effects, v.blockEffects block = .ok effects ∧ wrappedHeight 0 effects = some 0 := by
  unfold verifyBlock at h
  obtain ⟨final, hfold, hend⟩ := Except.bind_eq_ok.1 h
  obtain ⟨effects, hmap, hheight⟩ := foldlM_step_eq_ok _ _ _ hfold
  split_ifs at hend with hzero
  · subst hzero
    exact ⟨effects, hmap, hheight⟩

/-- **Stack usage is sound below the bound**: a block the verifier accepts,
whose pushes sum to less than `2 ^ 64`, never pops below its entry height and
leaves the stack at it, in exact arithmetic. -/
theorem verifyBlock_balanced {block : BasicBlock} (h : v.verifyBlock block = .ok ()) {effects : List (ℕ × ℕ)}
    (heffects : v.blockEffects block = .ok effects) (hbound : totalPushes effects < 2 ^ 64) :
    exactHeight 0 effects = some 0 := by
  obtain ⟨effects', heffects', hheight⟩ := verifyBlock_eq_ok h
  rw [heffects, Except.ok.injEq] at heffects'
  subst heffects'
  rw [← wrappedHeight_eq_exactHeight effects 0 (by omega)]
  exact hheight

end StackUsageVerifier

/-! ### The wrapping counter -/

/-- A module with no function or struct tables to read. -/
def emptyResolver : Resolver := ⟨fun _ => (0, 0), fun _ => 0, fun _ => .ok 0, fun _ => .ok 0⟩

/-- One block that unpacks a vector of `u64::MAX` elements between two empty
`VecPack`s, in a function that returns nothing. -/
def wrappedBlock : StackUsageVerifier :=
  ⟨emptyResolver, [.VecPack 0 0, .VecUnpack 0 (2 ^ 64 - 1), .VecPack 0 0, .Ret], 0⟩

/-- **The `u64` counter wraps**: the verifier accepts `wrappedBlock`, whose one
block ends `2 ^ 64` values above its entry height. -/
theorem verify_wrappedBlock :
    wrappedBlock.verify = .ok () ∧
      ((VMControlFlowGraph.new wrappedBlock.code).blocks.entries.map fun entry =>
        (wrappedBlock.blockEffects entry.2).toOption.bind (exactHeight 0)) = [some (2 ^ 64)] := by
  decide

/-- One block that unpacks a vector of `u64::MAX` elements and packs them
again, in a function that returns nothing. -/
def unpackBlock : StackUsageVerifier :=
  ⟨emptyResolver, [.VecPack 0 0, .VecUnpack 0 (2 ^ 64 - 1), .VecPack 0 (2 ^ 64 - 1), .Pop, .Ret], 0⟩

/-- **The height is not bounded**: the verifier accepts `unpackBlock` with no
wrap of its counter, and inside the block the stack is `u64::MAX` values
high. A later pass that keeps one abstract value per stack slot builds a stack
of that height. -/
theorem verify_unpackBlock :
    unpackBlock.verify = .ok () ∧ (VMControlFlowGraph.new unpackBlock.code).blockIds = [0] ∧
      ((unpackBlock.blockEffects ⟨0, 4, []⟩).toOption.bind fun effects =>
        (exactHeight 0 effects).bind fun h => (peakHeight 0 effects).map ((h, ·))) = some (0, 2 ^ 64 - 1) := by
  decide

end Diem.Move
