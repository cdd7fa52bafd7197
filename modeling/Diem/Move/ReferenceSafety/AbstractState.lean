import Diem.Move.AbsInt
import Diem.Move.BorrowGraph
import Mathlib.Data.Prod.Lex

/-!
# The abstract state of reference safety

`language/bytecode-verifier/src/reference_safety/abstract_state.rs`: what the
reference-safety pass knows at a program point. Each local holds a reference, by
its id in the borrow graph, or a non-reference value, or nothing; the borrow
graph records which references borrow from which, and from what part of the
frame or of a value. The frame itself is a reference, the frame root, with id
`num_locals`.

The methods on `&mut self` run in `EStateM Fault AbstractState`, and a panic of
the borrow graph is a `crash`. An error is reported at the offset of the
instruction, without the function index `at_code_offset` adds. At a block
boundary the state is made canonical: the reference in local `i` gets id `i`, by
`remap_refs` with the map from each local's id to its index.
-/

namespace Diem.Move

/-- `AbstractValue`: what a local or an operand stack slot holds. -/
inductive AbstractValue where
  | Reference (id : ℕ)
  | NonReference
  deriving DecidableEq, Repr

namespace AbstractValue

/-- `is_reference`. -/
def isReference : AbstractValue → Bool
  | Reference _ => true
  | NonReference => false

/-- `is_value`. -/
def isValue (v : AbstractValue) : Bool := !v.isReference

/-- `ref_id`. -/
def refId : AbstractValue → Option ℕ
  | Reference id => some id
  | NonReference => none

end AbstractValue

/-- `Label`: what an edge from the frame root or a reference borrows. -/
inductive Label where
  | Local (idx : ℕ)
  | Global (idx : ℕ)
  | Field (idx : ℕ)
  deriving DecidableEq, Repr

/-- The derived `Ord` of `Label`: by variant, then by index. -/
def Label.lex : Label → ℕ ×ₗ ℕ
  | Local i => toLex (0, i)
  | Global i => toLex (1, i)
  | Field i => toLex (2, i)

theorem Label.lex_injective : Function.Injective Label.lex := by
  intro x y h
  cases x <;> cases y <;> simp_all [Label.lex]

instance : LinearOrder Label := LinearOrder.lift' Label.lex Label.lex_injective

/-- `AbstractState`. -/
structure AbstractState where
  /-- The function being verified. -/
  currentFunction : Option ℕ
  /-- The locals that hold a value. -/
  locals : OrdMap ℕ AbstractValue
  /-- The borrow graph. -/
  borrowGraph : BorrowGraph Label
  /-- The number of locals, parameters included. -/
  numLocals : ℕ
  /-- The next fresh reference id. -/
  nextId : ℕ

namespace AbstractState

/-- `frame_root`. -/
def frameRoot (s : AbstractState) : ℕ := s.numLocals

/-- `error`: a status code at an offset. -/
def error (status : StatusCode) (offset : ℕ) : Fault := .error ⟨status, some offset⟩

/-- `is_canonical`: the fresh ids start after the frame root, and the
reference in local `i` has id `i`. -/
def isCanonical (s : AbstractState) : Bool :=
  s.numLocals + 1 == s.nextId && s.locals.entries.all fun entry => (entry.2.refId.map (· == entry.1)).getD true

/-- `new`: the parameters in their locals, a reference parameter `i` with id
`i`, and the frame root. -/
def new (fv : FunctionView) : Option AbstractState := do
  let numLocals := fv.parameters.length + fv.locals.length
  let init : AbstractState := ⟨fv.index, ∅, BorrowGraph.new, numLocals, numLocals + 1⟩
  let state ← fv.parameters.zipIdx.foldlM (fun (state : AbstractState) param =>
    if param.1.isReference then do
      let g ← state.borrowGraph.newRef param.2 param.1.isMutableReference
      pure { state with borrowGraph := g, locals := state.locals.insert param.2 (.Reference param.2) }
    else pure { state with locals := state.locals.insert param.2 .NonReference }) init
  let g ← state.borrowGraph.newRef state.frameRoot true
  let state := { state with borrowGraph := g }
  if state.isCanonical then some state else none

/-! ### Predicates -/

/-- `all_immutable`: no reference of the set is mutable. -/
def allImmutable (s : AbstractState) (borrows : OrdMap ℕ Unit) : Option Bool := do
  let anyMutable ← borrows.keys.anyM fun x => s.borrowGraph.isMutable x
  pure !anyMutable

/-- `has_full_borrows`: `id` is borrowed with an empty path. -/
def hasFullBorrows (s : AbstractState) (id : ℕ) : Option Bool := do
  let (fullBorrows, _) ← s.borrowGraph.borrowedBy id
  pure !fullBorrows.entries.isEmpty

/-- `has_consistent_borrows`: `id` is borrowed in full, or at the label (at any
label when none is given). -/
def hasConsistentBorrows (s : AbstractState) (id : ℕ) (labelOpt : Option Label) : Option Bool := do
  let (fullBorrows, fieldBorrows) ← s.borrowGraph.borrowedBy id
  pure (!fullBorrows.entries.isEmpty || match labelOpt with
    | none => fieldBorrows.entries.any fun entry => !entry.2.entries.isEmpty
    | some label => ((fieldBorrows.find? label).map fun borrows => !borrows.entries.isEmpty).getD false)

/-- `has_consistent_mutable_borrows`: the same, for mutable borrows. -/
def hasConsistentMutableBorrows (s : AbstractState) (id : ℕ) (labelOpt : Option Label) : Option Bool := do
  let (fullBorrows, fieldBorrows) ← s.borrowGraph.borrowedBy id
  let fullImmutable ← s.allImmutable fullBorrows
  if !fullImmutable then pure true
  else match labelOpt with
    | none => fieldBorrows.entries.anyM fun entry => do
      let immutable ← s.allImmutable entry.2
      pure !immutable
    | some label => match fieldBorrows.find? label with
      | some borrows => do
        let immutable ← s.allImmutable borrows
        pure !immutable
      | none => pure false

/-- `is_writable`: a mutable reference that nothing borrows. -/
def isWritable (s : AbstractState) (id : ℕ) : Option Bool := do
  let mutable ← s.borrowGraph.isMutable id
  if !mutable then none
  else do
    let borrowed ← s.hasConsistentBorrows id none
    pure !borrowed

/-- `is_freezable`: a mutable reference with no mutable borrow (of the field,
when one is given). -/
def isFreezable (s : AbstractState) (id : ℕ) (atFieldOpt : Option ℕ) : Option Bool := do
  let mutable ← s.borrowGraph.isMutable id
  if !mutable then none
  else do
    let borrowed ← s.hasConsistentMutableBorrows id (atFieldOpt.map Label.Field)
    pure !borrowed

/-- `is_readable`: an immutable reference, or a freezable one. -/
def isReadable (s : AbstractState) (id : ℕ) (atFieldOpt : Option ℕ) : Option Bool := do
  let mutable ← s.borrowGraph.isMutable id
  if !mutable then pure true else s.isFreezable id atFieldOpt

/-- `is_local_borrowed`. -/
def isLocalBorrowed (s : AbstractState) (idx : ℕ) : Option Bool :=
  s.hasConsistentBorrows s.frameRoot (some (.Local idx))

/-- `is_local_mutably_borrowed`. -/
def isLocalMutablyBorrowed (s : AbstractState) (idx : ℕ) : Option Bool :=
  s.hasConsistentMutableBorrows s.frameRoot (some (.Local idx))

/-- `is_global_borrowed`. -/
def isGlobalBorrowed (s : AbstractState) (resource : ℕ) : Option Bool :=
  s.hasConsistentBorrows s.frameRoot (some (.Global resource))

/-- `is_global_mutably_borrowed`. -/
def isGlobalMutablyBorrowed (s : AbstractState) (resource : ℕ) : Option Bool :=
  s.hasConsistentMutableBorrows s.frameRoot (some (.Global resource))

/-- `is_frame_safe_to_destroy`: nothing borrows from the frame. -/
def isFrameSafeToDestroy (s : AbstractState) : Option Bool := do
  let borrowed ← s.hasConsistentBorrows s.frameRoot none
  pure !borrowed

/-! ### Updates -/

/-- Read the state through a predicate that may panic. -/
def query {α : Type} (f : AbstractState → Option α) : EStateM Fault AbstractState α := do
  let s ← get
  unwrap (f s)

/-- Update the borrow graph by an operation that may panic. -/
def withGraph (f : ℕ → BorrowGraph Label → Option (BorrowGraph Label)) : EStateM Fault AbstractState Unit := do
  let s ← get
  let g ← unwrap (f s.frameRoot s.borrowGraph)
  set { s with borrowGraph := g }

/-- `new_ref`: a fresh reference with the next id. -/
def newRef (mut_ : Bool) : EStateM Fault AbstractState ℕ := do
  let s ← get
  let g ← unwrap (s.borrowGraph.newRef s.nextId mut_)
  set { s with borrowGraph := g, nextId := s.nextId + 1 }
  pure s.nextId

/-- `add_copy`. -/
def addCopy (parent child : ℕ) : EStateM Fault AbstractState Unit :=
  withGraph fun _ g => g.addStrongBorrow parent child

/-- `add_borrow`. -/
def addBorrow (parent child : ℕ) : EStateM Fault AbstractState Unit :=
  withGraph fun _ g => g.addWeakBorrow parent child

/-- `add_field_borrow`. -/
def addFieldBorrow (parent field child : ℕ) : EStateM Fault AbstractState Unit :=
  withGraph fun _ g => g.addStrongFieldBorrow parent (.Field field) child

/-- `add_local_borrow`. -/
def addLocalBorrow (idx id : ℕ) : EStateM Fault AbstractState Unit :=
  withGraph fun root g => g.addStrongFieldBorrow root (.Local idx) id

/-- `add_resource_borrow`. -/
def addResourceBorrow (resource id : ℕ) : EStateM Fault AbstractState Unit :=
  withGraph fun root g => g.addWeakFieldBorrow root (.Global resource) id

/-- `release`. -/
def release (id : ℕ) : EStateM Fault AbstractState Unit :=
  withGraph fun _ g => g.release id

/-- `value_for`: a fresh reference for a reference type. -/
def valueFor (ty : SignatureToken) : EStateM Fault AbstractState AbstractValue :=
  match ty with
  | .reference _ => .Reference <$> newRef false
  | .mutableReference _ => .Reference <$> newRef true
  | _ => pure .NonReference

/-- `release_value`. -/
def releaseValue (value : AbstractValue) : EStateM Fault AbstractState Unit :=
  match value with
  | .Reference id => release id
  | .NonReference => pure ()

/-! ### Instruction entry points -/

/-- `copy_loc`: a copy of a reference borrows it in full; a value must not be
mutably borrowed. -/
def copyLoc (offset idx : ℕ) : EStateM Fault AbstractState AbstractValue := do
  let s ← get
  match s.locals.find? idx with
  | none => throw .crash
  | some (.Reference id) => do
    let mutable ← query (·.borrowGraph.isMutable id)
    let newId ← newRef mutable
    addCopy id newId
    pure (.Reference newId)
  | some .NonReference => do
    let borrowed ← query (·.isLocalMutablyBorrowed idx)
    if borrowed then throw (error .COPYLOC_EXISTS_BORROW_ERROR offset) else pure .NonReference

/-- `move_loc`: the local is emptied; a value must not be borrowed. -/
def moveLoc (offset idx : ℕ) : EStateM Fault AbstractState AbstractValue := do
  let s ← get
  match s.locals.find? idx with
  | none => throw .crash
  | some value => do
    set { s with locals := s.locals.erase idx }
    match value with
    | .Reference id => pure (.Reference id)
    | .NonReference => do
      let borrowed ← query (·.isLocalBorrowed idx)
      if borrowed then throw (error .MOVELOC_EXISTS_BORROW_ERROR offset) else pure .NonReference

/-- `st_loc`: the old reference is released; an old value must not be
borrowed. -/
def stLoc (offset idx : ℕ) (newValue : AbstractValue) : EStateM Fault AbstractState Unit := do
  let s ← get
  set { s with locals := s.locals.insert idx newValue }
  match s.locals.find? idx with
  | none => pure ()
  | some (.Reference id) => release id
  | some .NonReference => do
    let borrowed ← query (·.isLocalBorrowed idx)
    if borrowed then throw (error .STLOC_UNSAFE_TO_DESTROY_ERROR offset) else pure ()

/-- `freeze_ref`. -/
def freezeRef (offset id : ℕ) : EStateM Fault AbstractState AbstractValue := do
  let freezable ← query (·.isFreezable id none)
  if !freezable then throw (error .FREEZEREF_EXISTS_MUTABLE_BORROW_ERROR offset)
  else do
    let frozenId ← newRef false
    addCopy id frozenId
    release id
    pure (.Reference frozenId)

/-- `comparison`: two readable references, or two values. -/
def comparison (offset : ℕ) (v1 v2 : AbstractValue) : EStateM Fault AbstractState AbstractValue := do
  match v1, v2 with
  | .Reference id1, .Reference id2 => do
    let readable1 ← query (·.isReadable id1 none)
    let unreadable ← if !readable1 then pure true else do
      let readable2 ← query (·.isReadable id2 none)
      pure !readable2
    if unreadable then throw (error .READREF_EXISTS_MUTABLE_BORROW_ERROR offset)
    else do
      release id1
      release id2
  | v1, v2 => do
    checkedVerify v1.isValue
    checkedVerify v2.isValue
  pure .NonReference

/-- `read_ref`. -/
def readRef (offset id : ℕ) : EStateM Fault AbstractState AbstractValue := do
  let readable ← query (·.isReadable id none)
  if !readable then throw (error .READREF_EXISTS_MUTABLE_BORROW_ERROR offset)
  else do
    release id
    pure .NonReference

/-- `write_ref`. -/
def writeRef (offset id : ℕ) : EStateM Fault AbstractState Unit := do
  let writable ← query (·.isWritable id)
  if !writable then throw (error .WRITEREF_EXISTS_BORROW_ERROR offset) else release id

/-- `borrow_loc`. -/
def borrowLoc (offset : ℕ) (mut_ : Bool) (idx : ℕ) : EStateM Fault AbstractState AbstractValue := do
  let conflict ← if !mut_ then query (·.isLocalMutablyBorrowed idx) else pure false
  if conflict then throw (error .BORROWLOC_EXISTS_BORROW_ERROR offset)
  else do
    let newId ← newRef mut_
    addLocalBorrow idx newId
    pure (.Reference newId)

/-- `borrow_field`. -/
def borrowField (offset : ℕ) (mut_ : Bool) (id field : ℕ) : EStateM Fault AbstractState AbstractValue := do
  let mutWithFull ← if mut_ then query (·.hasFullBorrows id) else pure false
  let conflict ← if mutWithFull then pure true
    else if !mut_ then do
      let readable ← query (·.isReadable id (some field))
      pure !readable
    else pure false
  if conflict then throw (error .BORROWFIELD_EXISTS_MUTABLE_BORROW_ERROR offset)
  else do
    let fieldBorrowId ← newRef mut_
    addFieldBorrow id field fieldBorrowId
    release id
    pure (.Reference fieldBorrowId)

/-- `borrow_global`. -/
def borrowGlobal (offset : ℕ) (mut_ : Bool) (resource : ℕ) : EStateM Fault AbstractState AbstractValue := do
  let mutConflict ← if mut_ then query (·.isGlobalBorrowed resource) else pure false
  let conflict ← if mutConflict then pure true else query (·.isGlobalMutablyBorrowed resource)
  if conflict then throw (error .GLOBAL_REFERENCE_ERROR offset)
  else do
    let newId ← newRef mut_
    addResourceBorrow resource newId
    pure (.Reference newId)

/-- `move_from`. -/
def moveFrom (offset resource : ℕ) : EStateM Fault AbstractState AbstractValue := do
  let borrowed ← query (·.isGlobalBorrowed resource)
  if borrowed then throw (error .GLOBAL_REFERENCE_ERROR offset) else pure .NonReference

/-- `vector_op`. -/
def vectorOp (offset : ℕ) (vector : AbstractValue) (mut_ : Bool) : EStateM Fault AbstractState Unit := do
  let id ← unwrap vector.refId
  let unwritable ← if mut_ then do
      let writable ← query (·.isWritable id)
      pure !writable
    else pure false
  if unwritable then throw (error .VEC_UPDATE_EXISTS_MUTABLE_BORROW_ERROR offset) else release id

/-- `vector_element_borrow`. -/
def vectorElementBorrow (offset : ℕ) (vector : AbstractValue) (mut_ : Bool) :
    EStateM Fault AbstractState AbstractValue := do
  let vecId ← unwrap vector.refId
  let unwritable ← if mut_ then do
      let writable ← query (·.isWritable vecId)
      pure !writable
    else pure false
  if unwritable then throw (error .VEC_BORROW_ELEMENT_EXISTS_MUTABLE_BORROW_ERROR offset)
  else do
    let elemId ← newRef mut_
    addBorrow vecId elemId
    release vecId
    pure (.Reference elemId)

/-- `call`: the acquired resources must not be borrowed, nor the mutable
reference arguments; a returned reference borrows from the arguments (a
mutable one from the mutable arguments only), and the arguments are released. -/
def call (offset : ℕ) (arguments : List AbstractValue) (acquiredResources : OrdMap ℕ Unit)
    (returns : List SignatureToken) : EStateM Fault AbstractState (List AbstractValue) := do
  acquiredResources.keys.forM fun acquiredResource => do
    let borrowed ← query (·.isGlobalBorrowed acquiredResource)
    if borrowed then throw (error .GLOBAL_REFERENCE_ERROR offset) else pure ()
  let (all, mutable) ← (arguments.filterMap AbstractValue.refId).foldlM (fun (acc : OrdMap ℕ Unit × OrdMap ℕ Unit) id => do
    let isMutable ← query (·.borrowGraph.isMutable id)
    if isMutable then do
      let writable ← query (·.isWritable id)
      if !writable then throw (error .CALL_BORROWED_MUTABLE_REFERENCE_ERROR offset)
      else pure (acc.1.insert id (), acc.2.insert id ())
    else pure (acc.1.insert id (), acc.2)) (∅, ∅)
  let returnValues ← returns.mapM fun returnType => match returnType with
    | .mutableReference _ => do
      let id ← newRef true
      mutable.keys.forM (addBorrow · id)
      pure (.Reference id)
    | .reference _ => do
      let id ← newRef false
      all.keys.forM (addBorrow · id)
      pure (.Reference id)
    | _ => pure .NonReference
  all.keys.forM release
  pure returnValues

/-- `ret`: every reference in a local is released, the frame must then be
unborrowed, and a returned mutable reference must be writable. -/
def ret (offset : ℕ) (values : List AbstractValue) : EStateM Fault AbstractState Unit := do
  let s ← get
  let released : OrdMap ℕ Unit := s.locals.entries.foldl (fun set entry => match entry.2 with
    | .Reference id => set.insert id ()
    | .NonReference => set) ∅
  released.keys.forM release
  let safe ← query (·.isFrameSafeToDestroy)
  if !safe then throw (error .UNSAFE_RET_LOCAL_OR_RESOURCE_STILL_BORROWED offset)
  else (values.filterMap AbstractValue.refId).forM fun id => do
    let isMutable ← query (·.borrowGraph.isMutable id)
    if isMutable then do
      let writable ← query (·.isWritable id)
      if !writable then throw (error .RET_BORROWED_MUTABLE_REFERENCE_ERROR offset) else pure ()
    else pure ()

/-! ### Block boundaries -/

/-- The id map of `construct_canonical_state`, with the canonical locals: the
frame root stays, and the reference of local `i` is renamed to `i`. -/
def canonicalIdMap (s : AbstractState) : OrdMap ℕ ℕ × OrdMap ℕ AbstractValue :=
  s.locals.entries.foldl (fun acc entry => match entry.2 with
    | .Reference oldId => (acc.1.insert oldId entry.1, acc.2.insert entry.1 (.Reference entry.1))
    | .NonReference => (acc.1, acc.2.insert entry.1 .NonReference))
    ((∅ : OrdMap ℕ ℕ).insert s.frameRoot s.frameRoot, ∅)

/-- `construct_canonical_state`. The `checked_verify!` on the number of locals
and the `checked_postcondition!` hold by construction. -/
def constructCanonicalState (s : AbstractState) : AbstractState :=
  { s with
    locals := s.canonicalIdMap.2
    borrowGraph := s.borrowGraph.remapRefs s.canonicalIdMap.1
    nextId := s.numLocals + 1 }

/-- `join_`: a local kept on one side only is dropped, its reference released
on that side; the graphs are then joined. -/
def join_ (s other : AbstractState) : Option AbstractState := do
  if !(s.currentFunction == other.currentFunction && s.isCanonical && other.isCanonical &&
      s.nextId == other.nextId && s.numLocals == other.numLocals) then none
  let (locals, selfGraph, otherGraph) ← (List.range s.numLocals).foldlM (fun acc idx =>
    match s.locals.find? idx, other.locals.find? idx with
    | none, none => some acc
    | some v, none => match v with
      | .Reference id => do
        let g ← acc.2.1.release id
        pure (acc.1, g, acc.2.2)
      | .NonReference => some acc
    | none, some v => match v with
      | .Reference id => do
        let g ← acc.2.2.release id
        pure (acc.1, acc.2.1, g)
      | .NonReference => some acc
    | some v1, some v2 => if v1 = v2 then some (acc.1.insert idx v1, acc.2) else none)
    ((∅ : OrdMap ℕ AbstractValue), s.borrowGraph, other.borrowGraph)
  let borrowGraph ← selfGraph.join otherGraph
  pure ⟨s.currentFunction, locals, borrowGraph, s.numLocals, s.nextId⟩

/-- `AbstractDomain::join`: the joined state, unless it keeps the same locals
and the old graph covers the joined one. -/
def join (s other : AbstractState) : Option (JoinResult × AbstractState) := do
  let joined ← s.join_ other
  if !joined.isCanonical then none
  let localsUnchanged := (List.range s.numLocals).all fun idx => s.locals.find? idx == joined.locals.find? idx
  let borrowGraphUnchanged ← s.borrowGraph.leq joined.borrowGraph
  if localsUnchanged && borrowGraphUnchanged then pure (.Unchanged, s) else pure (.Changed, joined)

end AbstractState

end Diem.Move
