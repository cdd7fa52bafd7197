import Diem.Move.AbsInt.Fixpoint
import Diem.Theory.Monads

/-!
# Locals safety

`language/bytecode-verifier/src/locals_safety`: whether a local holds a value
where it is used. The abstract state gives each local one of three states:
`Unavailable`, `Available` and `MaybeAvailable` (a value on some paths only,
what a join of the two gives). Moving, copying or borrowing a local needs it
`Available`; storing over a value, or returning with a value left, needs the
drop ability.

`execute_inner` is `executeInner`, which fails with a verification error, or
panics when it indexes a local out of range (which the bounds checker rules
out). `resolver.abilities(·, type_parameters)` is the parameter `abilities`, of
which only `drop` is read. A concrete state is which locals hold a value (`step`).

**`verify_sound`** instantiates the worklist theory of `AbsInt.Fixpoint`:
`analyze_function` ends for every function, and if `verify` accepts it, then
along every concrete path from the entry every `MoveLoc`, `CopyLoc` and borrow
reads a local that holds a value, every `StLoc` to a local without drop finds it
empty, and every `Ret` leaves no local without drop holding a value.
-/

namespace Diem.Move

namespace LocalsSafety

/-- `LocalState`: what the analysis knows of a local. -/
inductive LocalState where
  /-- The local does not have a value. -/
  | Unavailable
  /-- The local has a value on some paths, and not on others. -/
  | MaybeAvailable
  /-- The local has a value. -/
  | Available
  deriving DecidableEq, Repr

/-- The join of two states of a local, from the `match` of `join_`. -/
def LocalState.join : LocalState → LocalState → LocalState
  | .Unavailable, .Unavailable => .Unavailable
  | .Available, .Available => .Available
  | _, _ => .MaybeAvailable

/-- `AbstractState`. -/
structure AbstractState where
  /-- The function analysed. -/
  currentFunction : Option ℕ
  /-- The abilities of each local's type. -/
  allLocalAbilities : List AbilitySet
  /-- The state of each local. -/
  localStates : List LocalState
  deriving DecidableEq, Repr

namespace AbstractState

/-- `AbstractState::new`: the parameters are available, the other locals are
not; fails if the abilities of a local's type cannot be computed. -/
def new (abilities : SignatureToken → Except PartialVMError AbilitySet) (fv : FunctionView) :
    Except PartialVMError AbstractState := do
  let numArgs := fv.parameters.length
  let numLocals := numArgs + fv.locals.length
  let localStates := (List.range numLocals).map fun i => if i < numArgs then LocalState.Available else .Unavailable
  let allLocalAbilities ← (fv.parameters ++ fv.locals).mapM abilities
  pure { currentFunction := fv.index, localStates, allLocalAbilities }

/-- `local_abilities` (indexing out of range panics). -/
def localAbilities (s : AbstractState) (idx : ℕ) : Except Fault AbilitySet :=
  match s.allLocalAbilities[idx]? with
  | some abilities => pure abilities
  | none => throw .crash

/-- `local_state` (indexing out of range panics). -/
def localState (s : AbstractState) (idx : ℕ) : Except Fault LocalState :=
  match s.localStates[idx]? with
  | some state => pure state
  | none => throw .crash

/-- `set_available`. -/
def setAvailable (s : AbstractState) (idx : ℕ) : Except Fault AbstractState :=
  if idx < s.localStates.length then pure { s with localStates := s.localStates.set idx .Available }
  else throw .crash

/-- `set_unavailable`: its `checked_precondition!` wants the local available. -/
def setUnavailable (s : AbstractState) (idx : ℕ) : Except Fault AbstractState :=
  if s.localStates[idx]? = some .Available then pure { s with localStates := s.localStates.set idx .Unavailable }
  else throw .crash

/-- `error`: the status at the offset (the function index is not kept). -/
def error (status : StatusCode) (offset : ℕ) : Fault := .error ⟨status, some offset⟩

/-- `join_`: `none` when one of its `checked_precondition!`s fails. -/
def join_ (self other : AbstractState) : Option AbstractState :=
  if self.currentFunction = other.currentFunction ∧
      self.allLocalAbilities.length = other.allLocalAbilities.length ∧
      self.localStates.length = other.localStates.length then
    some { currentFunction := self.currentFunction
           allLocalAbilities := self.allLocalAbilities
           localStates := List.zipWith LocalState.join self.localStates other.localStates }
  else none

/-- `AbstractDomain::join`: `none` when it panics. -/
def join (self state : AbstractState) : Option (JoinResult × AbstractState) := do
  let joined ← join_ self state
  -- `checked_verify!`
  if self.localStates.length ≠ joined.localStates.length then none
  else if (self.localStates.zip joined.localStates).all (fun p => p.1 == p.2) then some (.Unchanged, self)
  else some (.Changed, joined)

end AbstractState

open AbstractState

/-- The check of `MoveLoc`, `CopyLoc` and the borrows of a local: it must be
available, or the pass reports `status`. -/
def requireAvailable (state : AbstractState) (idx : ℕ) (status : StatusCode) (offset : ℕ) : Except Fault Unit := do
  match ← state.localState idx with
  | .Available => pure ()
  | .MaybeAvailable | .Unavailable => throw (error status offset)

/-- A local that may hold a value its type cannot drop: the test of the loop
of `Ret`. -/
def unusedWithoutDrop : LocalState × AbilitySet → Bool
  | (.Unavailable, _) => false
  | (.MaybeAvailable, abilities) | (.Available, abilities) => !abilities.hasDrop

/-- `execute_inner`. -/
def executeInner (state : AbstractState) (bytecode : Bytecode) (offset : ℕ) : Except Fault AbstractState :=
  match bytecode with
  | .StLoc idx => do
    match ← state.localState idx with
    | .MaybeAvailable | .Available =>
      if !(← state.localAbilities idx).hasDrop then throw (error .STLOC_UNSAFE_TO_DESTROY_ERROR offset)
      else state.setAvailable idx
    | .Unavailable => state.setAvailable idx
  | .MoveLoc idx => do
    requireAvailable state idx .MOVELOC_UNAVAILABLE_ERROR offset
    state.setUnavailable idx
  | .CopyLoc idx => do
    requireAvailable state idx .COPYLOC_UNAVAILABLE_ERROR offset
    pure state
  | .MutBorrowLoc idx | .ImmBorrowLoc idx => do
    requireAvailable state idx .BORROWLOC_UNAVAILABLE_ERROR offset
    pure state
  | .Ret =>
    -- `checked_precondition!`: an ability set for each local
    if state.localStates.length ≠ state.allLocalAbilities.length then throw .crash
    else if (state.localStates.zip state.allLocalAbilities).any unusedWithoutDrop then
      throw (error .UNSAFE_RET_UNUSED_VALUES_WITHOUT_DROP offset)
    else pure state
  | _ => pure state

/-- `LocalsSafetyAnalysis`, which has no data of its own. -/
def analysis : Analysis Unit AbstractState where
  execute bytecode index _ := do
    let (u, state) ← get
    match executeInner state bytecode index with
    | .ok state => set (u, state)
    | .error e => throw e
  join := AbstractState.join

/-- `verify`: the first error recorded for a block, in the order of the
blocks; `none` when the fuel runs out. -/
def verify (abilities : SignatureToken → Except PartialVMError AbilitySet) (fv : FunctionView) (fuel : ℕ) :
    Option (Except Fault Unit) :=
  match AbstractState.new abilities fv with
  | .error e => some (.error (.error e))
  | .ok initialState =>
    match analysis.analyzeFunction fuel initialState () fv.code with
    | none => none
    | some (.error f) => some (.error f)
    | some (.ok (invMap, ())) => some (invMap.entries.forM fun entry => match entry.2.post with
      | .Error err => .error (.error err)
      | _ => .ok ())

/-- Enough fuel for the analysis of `fv`: each block id can be pushed once
when it is first reached and once for each local that turns
`MaybeAvailable`. -/
def fuelBound (fv : FunctionView) : ℕ :=
  (Analysis.blockTargets (VMControlFlowGraph.new fv.code)).card * (fv.parameters.length + fv.locals.length + 1) + 1

/-! ### Concrete runs -/

/-- The locals at the entry: the parameters hold their arguments. -/
def entryLocals (fv : FunctionView) : List Bool :=
  (List.range (fv.parameters.length + fv.locals.length)).map (· < fv.parameters.length)

/-- What an instruction does to which locals hold a value. -/
def step : Bytecode → List Bool → List Bool
  | .StLoc idx, c => c.set idx true
  | .MoveLoc idx, c => c.set idx false
  | _, c => c

/-- What the pass promises of an instruction run from the locals `held`, where
`noDrop` holds of the locals whose type has no drop ability. -/
def Safe (noDrop : ℕ → Prop) : Bytecode → List Bool → Prop
  | .MoveLoc idx, held | .CopyLoc idx, held | .MutBorrowLoc idx, held | .ImmBorrowLoc idx, held =>
    held[idx]? = some true
  | .StLoc idx, held => noDrop idx → held[idx]? = some false
  | .Ret, held => ∀ idx, noDrop idx → held[idx]? = some false
  | _, _ => True

/-- The local `idx` of `fv` has a type without the drop ability. -/
def NoDrop (abilities : SignatureToken → Except PartialVMError AbilitySet) (fv : FunctionView) (idx : ℕ) : Prop :=
  (fv.parameters ++ fv.locals)[idx]?.map abilities = some (.ok ⟨false⟩)

/-! ### The domain -/

namespace LocalState

/-- `MaybeAvailable` covers every state, the other two only themselves. -/
def Le (x y : LocalState) : Prop := x = y ∨ y = .MaybeAvailable

theorem le_refl (x : LocalState) : Le x x := .inl rfl

theorem Le.trans {x y z : LocalState} (h : Le x y) (h' : Le y z) : Le x z := by
  rcases h with rfl | rfl
  · exact h'
  · rcases h' with rfl | rfl <;> exact .inr rfl

theorem le_join_left (x y : LocalState) : Le x (join x y) := by
  unfold Le
  cases x <;> cases y <;> decide

theorem le_join_right (x y : LocalState) : Le y (join x y) := by
  unfold Le
  cases x <;> cases y <;> decide

/-- What a local's state says of whether it holds a value. -/
def Describes (b : Bool) : LocalState → Prop
  | .Available => b = true
  | .Unavailable => b = false
  | .MaybeAvailable => True

theorem Describes.mono {b : Bool} {x y : LocalState} (h : Describes b x) (hle : Le x y) : Describes b y := by
  rcases hle with rfl | rfl
  · exact h
  · trivial

/-- Whether the state is one of the two that say something. -/
def isDefinite (x : LocalState) : Bool := x != .MaybeAvailable

/-- A join changes a local only to `MaybeAvailable`. -/
theorem isDefinite_join {x y : LocalState} (h : join x y ≠ x) : isDefinite x = true ∧ isDefinite (join x y) = false := by
  cases x <;> cases y <;> simp_all [join, isDefinite]

end LocalState

section Lists

theorem exists_getElem?_of_length_eq {α β : Type} {l : List α} {l' : List β} (hlen : l.length = l'.length)
    {i : ℕ} {a : α} (h : l[i]? = some a) : ∃ b, l'[i]? = some b := by
  obtain ⟨hi, -⟩ := List.getElem?_eq_some_iff.1 h
  exact ⟨l'[i], List.getElem?_eq_getElem (hlen ▸ hi)⟩

theorem getElem?_zipWith_join {l l' : List LocalState} {i : ℕ} {x y : LocalState} (hx : l[i]? = some x)
    (hy : l'[i]? = some y) : (List.zipWith LocalState.join l l')[i]? = some (LocalState.join x y) := by
  rw [List.getElem?_zipWith, hx, hy]

/-- The joined states are no more definite than the first side, and less if
they differ from it. -/
theorem countP_zipWith_join :
    ∀ (l l' : List LocalState), l.length = l'.length →
      (List.zipWith LocalState.join l l').countP LocalState.isDefinite ≤ l.countP LocalState.isDefinite ∧
        (List.zipWith LocalState.join l l' ≠ l →
          (List.zipWith LocalState.join l l').countP LocalState.isDefinite < l.countP LocalState.isDefinite)
  | [], [], _ => ⟨le_rfl, fun h => absurd rfl h⟩
  | x :: l, y :: l', hlen => by
    obtain ⟨hle, hlt⟩ := countP_zipWith_join l l' (by simpa using hlen)
    simp only [List.zipWith_cons_cons, List.countP_cons, ne_eq, List.cons.injEq, not_and_or]
    by_cases hxy : LocalState.join x y = x
    · rw [hxy]
      refine ⟨by omega, fun h => ?_⟩
      have := hlt (h.resolve_left (not_not.2 rfl))
      omega
    · obtain ⟨hx, hj⟩ := LocalState.isDefinite_join hxy
      simp only [hx, hj, if_true]
      constructor <;> intros <;> simp <;> omega

end Lists

/-- `t` covers `s`: the same abilities, and each local's state covered. -/
structure Le (s t : AbstractState) : Prop where
  abilities : s.allLocalAbilities = t.allLocalAbilities
  length : s.localStates.length = t.localStates.length
  states : ∀ (i : ℕ) (x y : LocalState), s.localStates[i]? = some x → t.localStates[i]? = some y → x.Le y

/-- The states of the analysis of one function: its index, the abilities `A`
of its locals, and a state for each. -/
structure Wf (f : Option ℕ) (A : List AbilitySet) (s : AbstractState) : Prop where
  currentFunction : s.currentFunction = f
  abilities : s.allLocalAbilities = A
  length : s.localStates.length = A.length

/-- The abstract state describes the concrete locals `held`, with the
abilities `A`. -/
structure Describes (A : List AbilitySet) (held : List Bool) (s : AbstractState) : Prop where
  abilities : s.allLocalAbilities = A
  length : held.length = s.localStates.length
  states : ∀ (i : ℕ) (b : Bool) (x : LocalState), held[i]? = some b → s.localStates[i]? = some x → x.Describes b

theorem Le.refl (s : AbstractState) : Le s s where
  abilities := rfl
  length := rfl
  states i x y hx hy := by
    rw [hx, Option.some.injEq] at hy
    exact hy ▸ LocalState.le_refl x

theorem Le.trans {s t u : AbstractState} (h : Le s t) (h' : Le t u) : Le s u where
  abilities := h.abilities.trans h'.abilities
  length := h.length.trans h'.length
  states i x z hx hz := by
    obtain ⟨y, hy⟩ := exists_getElem?_of_length_eq h.length hx
    exact (h.states i x y hx hy).trans (h'.states i y z hy hz)

theorem Describes.mono {A : List AbilitySet} {c : List Bool} {s t : AbstractState} (h : Describes A c s)
    (hle : Le s t) : Describes A c t where
  abilities := hle.abilities.symm.trans h.abilities
  length := h.length.trans hle.length
  states i b y hb hy := by
    obtain ⟨x, hx⟩ := exists_getElem?_of_length_eq h.length hb
    exact (h.states i b x hb hx).mono (hle.states i x y hx hy)

/-- The state with the local `idx` set to `x` describes the locals with
`idx` set to `b`, when `x` says `b`. -/
theorem Describes.set {A : List AbilitySet} {c : List Bool} {s : AbstractState} (h : Describes A c s)
    {idx : ℕ} {b : Bool} {x : LocalState} (hx : x.Describes b) :
    Describes A (c.set idx b) { s with localStates := s.localStates.set idx x } where
  abilities := h.abilities
  length := by simpa using h.length
  states i b' x' hb hx' := by
    rw [List.getElem?_set] at hb hx'
    by_cases hi : idx = i
    · subst hi
      have hlt : idx < c.length := by
        by_contra hge
        simp [hge] at hb
      have hlt' : idx < s.localStates.length := h.length ▸ hlt
      rw [if_pos rfl, if_pos hlt, Option.some.injEq] at hb
      rw [if_pos rfl, if_pos hlt', Option.some.injEq] at hx'
      exact hb ▸ hx' ▸ hx
    · rw [if_neg hi] at hb hx'
      exact h.states i b' x' hb hx'

/-! ### The join -/

theorem all_zip_beq {l l' : List LocalState} (hlen : l.length = l'.length) :
    (l.zip l').all (fun p => p.1 == p.2) = decide (l = l') := by
  induction l generalizing l' with
  | nil => cases l' <;> simp_all
  | cons x l ih =>
    cases l' with
    | nil => simp at hlen
    | cons y l' =>
      simp only [List.zip_cons_cons, List.all_cons, ih (by simpa using hlen), List.cons.injEq]
      by_cases hxy : x = y <;> simp [hxy]

/-- The join of two states of one function's analysis: `Unchanged` with the
precondition if joining changes no local, and `Changed` with the joined
locals if not. -/
theorem join_eq {f : Option ℕ} {A : List AbilitySet} {s t : AbstractState} (hs : Wf f A s) (ht : Wf f A t) :
    join s t = some (if s.localStates = List.zipWith LocalState.join s.localStates t.localStates then (.Unchanged, s)
      else (.Changed, { s with localStates := List.zipWith LocalState.join s.localStates t.localStates })) := by
  have hlen : s.localStates.length = t.localStates.length := hs.length.trans ht.length.symm
  have hcond : s.currentFunction = t.currentFunction ∧ s.allLocalAbilities.length = t.allLocalAbilities.length ∧
      s.localStates.length = t.localStates.length :=
    ⟨hs.currentFunction.trans ht.currentFunction.symm, by rw [hs.abilities, ht.abilities], hlen⟩
  have hzip : (List.zipWith LocalState.join s.localStates t.localStates).length = s.localStates.length := by
    simp [hlen]
  simp only [join, join_, if_pos hcond, Option.bind_eq_bind, Option.bind_some, hzip, ne_eq, not_true_eq_false,
    if_false, all_zip_beq hzip.symm, decide_eq_true_eq]
  by_cases heq : s.localStates = List.zipWith LocalState.join s.localStates t.localStates
  · rw [if_pos heq, if_pos heq]
  · rw [if_neg heq, if_neg heq]

theorem le_joined_left {s t : AbstractState} (hlen : s.localStates.length = t.localStates.length) :
    Le s { s with localStates := List.zipWith LocalState.join s.localStates t.localStates } where
  abilities := rfl
  length := by simp [hlen]
  states i x z hx hz := by
    obtain ⟨y, hy⟩ := exists_getElem?_of_length_eq hlen hx
    rw [getElem?_zipWith_join hx hy, Option.some.injEq] at hz
    exact hz ▸ LocalState.le_join_left x y

theorem le_joined_right {s t : AbstractState} (hab : t.allLocalAbilities = s.allLocalAbilities)
    (hlen : s.localStates.length = t.localStates.length) :
    Le t { s with localStates := List.zipWith LocalState.join s.localStates t.localStates } where
  abilities := hab
  length := by simp [hlen]
  states i y z hy hz := by
    obtain ⟨x, hx⟩ := exists_getElem?_of_length_eq hlen.symm hy
    rw [getElem?_zipWith_join hx hy, Option.some.injEq] at hz
    exact hz ▸ LocalState.le_join_right x y

/-- The laws of the join on the states of one function's analysis. -/
theorem joinLaws (f : Option ℕ) (A : List AbilitySet) : analysis.JoinLaws Le (Wf f A) where
  refl := Le.refl
  trans := Le.trans
  join {s t r u} hs ht h := by
    have hlen : s.localStates.length = t.localStates.length := hs.length.trans ht.length.symm
    have hab : t.allLocalAbilities = s.allLocalAbilities := ht.abilities.trans hs.abilities.symm
    change join s t = some (r, u) at h
    rw [join_eq hs ht] at h
    by_cases heq : s.localStates = List.zipWith LocalState.join s.localStates t.localStates
    · rw [if_pos heq, Option.some.injEq, Prod.mk.injEq] at h
      obtain ⟨rfl, rfl⟩ := h
      have hright := le_joined_right hab hlen
      rw [← heq] at hright
      exact ⟨hs, Le.refl _, hright, fun _ => rfl⟩
    · rw [if_neg heq, Option.some.injEq, Prod.mk.injEq] at h
      obtain ⟨rfl, rfl⟩ := h
      refine ⟨⟨hs.currentFunction, hs.abilities, ?_⟩, le_joined_left hlen, le_joined_right hab hlen, nofun⟩
      rw [List.length_zipWith, ← hlen, Nat.min_self, hs.length]

/-! ### One instruction -/

theorem localState_eq_ok {s : AbstractState} {idx : ℕ} {x : LocalState} :
    s.localState idx = .ok x ↔ s.localStates[idx]? = some x := by
  unfold localState
  cases s.localStates[idx]? <;> simp

theorem localAbilities_eq_ok {s : AbstractState} {idx : ℕ} {a : AbilitySet} :
    s.localAbilities idx = .ok a ↔ s.allLocalAbilities[idx]? = some a := by
  unfold localAbilities
  cases s.allLocalAbilities[idx]? <;> simp

theorem requireAvailable_eq_ok {s : AbstractState} {idx : ℕ} {status : StatusCode} {offset : ℕ} :
    requireAvailable s idx status offset = .ok () ↔ s.localStates[idx]? = some .Available := by
  unfold requireAvailable
  cases h : s.localState idx with
  | error e =>
    rw [Except.error_bind]
    constructor
    · nofun
    · intro hs
      rw [localState_eq_ok.2 hs] at h
      cases h
  | ok x =>
    rw [Except.ok_bind, ← localState_eq_ok, h]
    cases x <;> simp [error]

theorem stLoc_eq_ok {s s' : AbstractState} {idx offset : ℕ} (h : executeInner s (.StLoc idx) offset = .ok s') :
    (s.localStates[idx]? = some .Unavailable ∨ ∃ a, s.allLocalAbilities[idx]? = some a ∧ a.hasDrop = true) ∧
      s' = { s with localStates := s.localStates.set idx .Available } := by
  have hset : ∀ s'', s.setAvailable idx = .ok s'' → s'' = { s with localStates := s.localStates.set idx .Available } := by
    intro s'' h
    unfold setAvailable at h
    split_ifs at h
    · exact (Except.ok.inj h).symm
  simp only [executeInner] at h
  cases hx : s.localState idx with
  | error e => rw [hx, Except.error_bind] at h; cases h
  | ok x =>
    rw [hx, Except.ok_bind] at h
    cases x with
    | Unavailable => exact ⟨.inl (localState_eq_ok.1 hx), hset s' h⟩
    | MaybeAvailable | Available =>
      cases ha : s.localAbilities idx with
      | error e => rw [ha, Except.error_bind] at h; cases h
      | ok a =>
        rw [ha, Except.ok_bind] at h
        cases hdrop : a.hasDrop
        · simp [hdrop, error] at h
        · simp only [hdrop, Bool.not_true, Bool.false_eq_true, if_false] at h
          exact ⟨.inr ⟨a, localAbilities_eq_ok.1 ha, hdrop⟩, hset s' h⟩

theorem moveLoc_eq_ok {s s' : AbstractState} {idx offset : ℕ} (h : executeInner s (.MoveLoc idx) offset = .ok s') :
    s.localStates[idx]? = some .Available ∧ s' = { s with localStates := s.localStates.set idx .Unavailable } := by
  simp only [executeInner] at h
  obtain ⟨u, hreq, h⟩ := Except.bind_eq_ok.1 h
  have havail := requireAvailable_eq_ok.1 hreq
  unfold setUnavailable at h
  rw [if_pos havail] at h
  exact ⟨havail, (Except.ok.inj h).symm⟩

/-- A use of a local that only reads it (`CopyLoc`, the borrows). -/
theorem use_eq_ok {s s' : AbstractState} {idx : ℕ} {status : StatusCode} {offset : ℕ}
    (h : (do requireAvailable s idx status offset; pure s : Except Fault AbstractState) = .ok s') :
    s.localStates[idx]? = some .Available ∧ s' = s := by
  obtain ⟨u, hreq, h⟩ := Except.bind_eq_ok.1 h
  exact ⟨requireAvailable_eq_ok.1 hreq, (Except.ok.inj h).symm⟩

theorem ret_eq_ok {s s' : AbstractState} {offset : ℕ} (h : executeInner s .Ret offset = .ok s') :
    s.localStates.length = s.allLocalAbilities.length ∧
      (s.localStates.zip s.allLocalAbilities).any unusedWithoutDrop = false ∧ s' = s := by
  simp only [executeInner] at h
  by_cases hlen : s.localStates.length = s.allLocalAbilities.length
  · rw [if_neg (not_not.2 hlen)] at h
    cases hany : (s.localStates.zip s.allLocalAbilities).any unusedWithoutDrop
    · rw [hany] at h
      exact ⟨hlen, rfl, (Except.ok.inj h).symm⟩
    · simp [hany, error] at h
  · simp [hlen] at h

/-- An instruction changes only the states of the locals, and keeps their
number. -/
theorem executeInner_frame {s s' : AbstractState} {instr : Bytecode} {offset : ℕ}
    (h : executeInner s instr offset = .ok s') :
    s'.currentFunction = s.currentFunction ∧ s'.allLocalAbilities = s.allLocalAbilities ∧
      s'.localStates.length = s.localStates.length := by
  cases instr with
  | StLoc idx => obtain ⟨-, rfl⟩ := stLoc_eq_ok h; simp
  | MoveLoc idx => obtain ⟨-, rfl⟩ := moveLoc_eq_ok h; simp
  | CopyLoc idx => obtain ⟨-, rfl⟩ := use_eq_ok h; simp
  | MutBorrowLoc idx => obtain ⟨-, rfl⟩ := use_eq_ok h; simp
  | ImmBorrowLoc idx => obtain ⟨-, rfl⟩ := use_eq_ok h; simp
  | Ret => obtain ⟨-, -, rfl⟩ := ret_eq_ok h; simp
  | _ => cases Except.ok.inj h; simp

/-- The describing state of a local that holds or lacks a value says so. -/
theorem Describes.getElem? {A : List AbilitySet} {held : List Bool} {s : AbstractState} (h : Describes A held s)
    {idx : ℕ} {x : LocalState} (hx : s.localStates[idx]? = some x) : ∃ b, held[idx]? = some b ∧ x.Describes b := by
  obtain ⟨b, hb⟩ := exists_getElem?_of_length_eq h.length.symm hx
  exact ⟨b, hb, h.states idx b x hb hx⟩

/-- **One instruction is safe.** An instruction the pass accepts from a state
that describes the locals does only what `Safe` allows, and its result
describes the locals after it. -/
theorem executeInner_simulates {A : List AbilitySet} {c : List Bool} {s s' : AbstractState} {instr : Bytecode}
    {offset : ℕ} (h : executeInner s instr offset = .ok s') (hc : Describes A c s) :
    Safe (fun idx => A[idx]? = some ⟨false⟩) instr c ∧ Describes A (step instr c) s' := by
  cases instr with
  | StLoc idx =>
    obtain ⟨hcase, rfl⟩ := stLoc_eq_ok h
    refine ⟨fun hnd => ?_, hc.set rfl⟩
    -- a local without drop must have been unavailable
    rcases hcase with hun | ⟨a, ha, hdrop⟩
    · obtain ⟨b, hb, hdesc⟩ := hc.getElem? hun
      exact hb.trans (congrArg some hdesc)
    · rw [hc.abilities, hnd, Option.some.injEq] at ha
      simp [← ha] at hdrop
  | MoveLoc idx =>
    obtain ⟨havail, rfl⟩ := moveLoc_eq_ok h
    obtain ⟨b, hb, hdesc⟩ := hc.getElem? havail
    exact ⟨hb.trans (congrArg some hdesc), hc.set rfl⟩
  | CopyLoc idx =>
    obtain ⟨havail, rfl⟩ := use_eq_ok h
    obtain ⟨b, hb, hdesc⟩ := hc.getElem? havail
    exact ⟨hb.trans (congrArg some hdesc), hc⟩
  | MutBorrowLoc idx =>
    obtain ⟨havail, rfl⟩ := use_eq_ok h
    obtain ⟨b, hb, hdesc⟩ := hc.getElem? havail
    exact ⟨hb.trans (congrArg some hdesc), hc⟩
  | ImmBorrowLoc idx =>
    obtain ⟨havail, rfl⟩ := use_eq_ok h
    obtain ⟨b, hb, hdesc⟩ := hc.getElem? havail
    exact ⟨hb.trans (congrArg some hdesc), hc⟩
  | Ret =>
    obtain ⟨hlen, hany, hs⟩ := ret_eq_ok h
    rw [hs]
    refine ⟨fun idx hnd => ?_, hc⟩
    -- the local is in range, and the loop of `Ret` found it without a value
    rw [← hc.abilities] at hnd
    obtain ⟨x, hx⟩ := exists_getElem?_of_length_eq hlen.symm hnd
    have hmem : (x, (⟨false⟩ : AbilitySet)) ∈ s.localStates.zip s.allLocalAbilities :=
      List.mem_of_getElem? (List.getElem?_zip_eq_some.2 ⟨hx, hnd⟩)
    have hun : x = .Unavailable := by
      have := List.any_eq_false.1 hany _ hmem
      cases x <;> simp_all [unusedWithoutDrop]
    obtain ⟨b, hb, hdesc⟩ := hc.getElem? hx
    subst hun
    exact hb.trans (congrArg some hdesc)
  | _ =>
    cases Except.ok.inj h
    exact ⟨trivial, hc⟩

theorem analysis_execute_run {instr : Bytecode} {index lastIndex : ℕ} {u u' : Unit} {s s' : AbstractState}
    (h : (analysis.execute instr index lastIndex).run (u, s) = .ok () (u', s')) :
    executeInner s instr index = .ok s' := by
  simp only [analysis, EStateM.run, bind, EStateM.bind, get, getThe, MonadStateOf.get, EStateM.get] at h
  cases hrun : executeInner s instr index with
  | ok state =>
    simp only [hrun] at h
    cases h
    rfl
  | error e =>
    simp only [hrun] at h
    cases h

/-! ### The analysis -/

theorem keeps_wf (f : Option ℕ) (A : List AbilitySet) : analysis.Keeps (Wf f A) := by
  intro instr index lastIndex aux s aux' s' hs h
  obtain ⟨hf, ha, hl⟩ := executeInner_frame (analysis_execute_run h)
  exact ⟨hf.trans hs.currentFunction, ha.trans hs.abilities, hl.trans hs.length⟩

theorem simulates (A : List AbilitySet) :
    analysis.Simulates step (Safe fun idx => A[idx]? = some ⟨false⟩) (Describes A) :=
  fun _ _ _ _ _ _ _ _ h hc => executeInner_simulates (analysis_execute_run h) hc

/-- The number of locals whose state is definite, which a `Changed` join
lowers. -/
def definite (s : AbstractState) : ℕ := s.localStates.countP LocalState.isDefinite

theorem potential (f : Option ℕ) (A : List AbilitySet) : analysis.Potential definite A.length (Wf f A) where
  le_bound hs := hs.length ▸ List.countP_le_length
  join {s t u} hs ht h := by
    have hlen : s.localStates.length = t.localStates.length := hs.length.trans ht.length.symm
    change join s t = some (.Changed, u) at h
    rw [join_eq hs ht] at h
    by_cases heq : s.localStates = List.zipWith LocalState.join s.localStates t.localStates
    · rw [if_pos heq, Option.some.injEq, Prod.mk.injEq] at h
      exact absurd h.1 (by decide)
    · rw [if_neg heq, Option.some.injEq, Prod.mk.injEq] at h
      obtain ⟨-, rfl⟩ := h
      refine ⟨⟨hs.currentFunction, hs.abilities, by rw [List.length_zipWith, ← hlen, Nat.min_self, hs.length]⟩, ?_⟩
      exact (countP_zipWith_join _ _ hlen).2 (Ne.symm heq)

/-! ### The initial state -/

theorem new_eq_ok {abilities : SignatureToken → Except PartialVMError AbilitySet} {fv : FunctionView}
    {s : AbstractState} (h : AbstractState.new abilities fv = .ok s) :
    (fv.parameters ++ fv.locals).mapM abilities = .ok s.allLocalAbilities ∧ s.currentFunction = fv.index ∧
      s.localStates = (List.range (fv.parameters.length + fv.locals.length)).map
        fun i => if i < fv.parameters.length then LocalState.Available else .Unavailable := by
  unfold AbstractState.new at h
  obtain ⟨A, hA, h⟩ := Except.bind_eq_ok.1 h
  cases Except.ok.inj h
  exact ⟨hA, rfl, rfl⟩

theorem new_wf {abilities : SignatureToken → Except PartialVMError AbilitySet} {fv : FunctionView}
    {s : AbstractState} (h : AbstractState.new abilities fv = .ok s) :
    Wf fv.index s.allLocalAbilities s := by
  obtain ⟨hA, hf, hl⟩ := new_eq_ok h
  refine ⟨hf, rfl, ?_⟩
  rw [hl, Except.length_of_mapM_eq_ok hA]
  simp

/-- The initial state describes the locals at the entry. -/
theorem new_describes {abilities : SignatureToken → Except PartialVMError AbilitySet} {fv : FunctionView}
    {s : AbstractState} (h : AbstractState.new abilities fv = .ok s) :
    Describes s.allLocalAbilities (entryLocals fv) s := by
  obtain ⟨-, -, hl⟩ := new_eq_ok h
  refine ⟨rfl, by simp [entryLocals, hl], fun i b x hb hx => ?_⟩
  simp only [entryLocals, hl, List.getElem?_map] at hb hx
  have hi : i < fv.parameters.length + fv.locals.length := by
    by_contra hge
    have hnone : (List.range (fv.parameters.length + fv.locals.length))[i]? = none :=
      List.getElem?_eq_none_iff.2 (by rw [List.length_range]; omega)
    rw [hnone] at hx
    cases hx
  rw [List.getElem?_range hi, Option.map_some, Option.some.injEq] at hb hx
  subst hb hx
  by_cases hp : i < fv.parameters.length <;> simp [hp, LocalState.Describes]

/-- The abilities the pass computed say drop is missing where `NoDrop` does. -/
theorem noDrop_abilities {abilities : SignatureToken → Except PartialVMError AbilitySet} {fv : FunctionView}
    {s : AbstractState} (h : AbstractState.new abilities fv = .ok s) {idx : ℕ} (hnd : NoDrop abilities fv idx) :
    s.allLocalAbilities[idx]? = some ⟨false⟩ := by
  have hmap := Except.mapM_eq_ok_getElem? (new_eq_ok h).1 idx
  rw [NoDrop] at hnd
  rw [hnd] at hmap
  cases hs : s.allLocalAbilities[idx]? with
  | none => rw [hs] at hmap; cases hmap
  | some a =>
    rw [hs, Option.map_some, Option.some.injEq, Except.ok.injEq] at hmap
    rw [hmap]

theorem safeRun_noDrop {abilities : SignatureToken → Except PartialVMError AbilitySet} {fv : FunctionView}
    {s : AbstractState} (h : AbstractState.new abilities fv = .ok s) :
    ∀ (instrs : List Bytecode) (c : List Bool),
      SafeRun step (Safe fun idx => s.allLocalAbilities[idx]? = some ⟨false⟩) instrs c →
        SafeRun step (Safe (NoDrop abilities fv)) instrs c
  | [], _, _ => trivial
  | instr :: instrs, c, ⟨hsafe, hrest⟩ => by
    refine ⟨?_, safeRun_noDrop h instrs _ hrest⟩
    cases instr with
    | StLoc idx => exact fun hnd => hsafe (noDrop_abilities h hnd)
    | Ret => exact fun idx hnd => hsafe idx (noDrop_abilities h hnd)
    | _ => exact hsafe

/-- **Locals safety is sound, and its analysis ends.** For every function,
`analyze_function` ends with fuel beyond `fuelBound`. If `verify` accepts the
function, every block a concrete path from the entry reaches has been
processed, and every instruction on the path uses only locals that hold a
value, stores only over values it may drop, and returns only with values it
may drop. -/
theorem verify_sound (abilities : SignatureToken → Except PartialVMError AbilitySet) (fv : FunctionView) :
    (∀ initialState fuel, AbstractState.new abilities fv = .ok initialState → fuelBound fv < fuel →
      (analysis.analyzeFunction fuel initialState () fv.code).isSome) ∧
    ∀ fuel, verify abilities fv fuel = some (.ok ()) →
      ∃ initialState invMap, AbstractState.new abilities fv = .ok initialState ∧
        analysis.analyzeFunction fuel initialState () fv.code = some (.ok (invMap, ())) ∧
        ∀ b c, Reach step (VMControlFlowGraph.new fv.code) fv.code (entryLocals fv) b c →
          (∃ inv, invMap.find? b = some inv ∧ inv.post = .Success) ∧
          ∃ block, (VMControlFlowGraph.new fv.code).blocks.find? b = some block ∧
            SafeRun step (Safe (NoDrop abilities fv)) (blockInstrs fv.code block) c := by
  constructor
  · intro s fuel hnew hfuel
    have hwf := new_wf hnew
    have hlen : s.allLocalAbilities.length = fv.parameters.length + fv.locals.length := by
      rw [Except.length_of_mapM_eq_ok (new_eq_ok hnew).1, List.length_append]
    refine Analysis.analyzeFunction_isSome (potential fv.index _) (keeps_wf fv.index _) hwf ?_ ()
    rw [hlen]
    exact hfuel
  · intro fuel h
    unfold verify at h
    cases hnew : AbstractState.new abilities fv with
    | error e => simp only [hnew] at h; cases h
    | ok s =>
      simp only [hnew] at h
      cases hrun : analysis.analyzeFunction fuel s () fv.code with
      | none => simp only [hrun] at h; cases h
      | some r =>
        rcases r with f | ⟨invMap, ⟨⟩⟩
        · simp only [hrun] at h; cases h
        simp only [hrun, Option.some.injEq] at h
        have hok : ∀ b inv, invMap.find? b = some inv → ∀ e, inv.post ≠ .Error e := by
          intro b inv hb e herr
          have := Except.forM_eq_ok h _ ((OrdMap.find?_eq_some_iff _ _ _).1 hb)
          simp [herr] at this
        refine ⟨s, invMap, rfl, hrun, fun b c hreach => ?_⟩
        obtain ⟨⟨inv, hb, hsucc, -⟩, block, hblock, hsafe⟩ :=
          Analysis.analyzeFunction_sound (joinLaws fv.index s.allLocalAbilities) (keeps_wf _ _) (simulates _)
            (fun hc hle => hc.mono hle) (new_wf hnew) hrun hok (new_describes hnew) hreach
        exact ⟨⟨inv, hb, hsucc⟩, block, hblock, safeRun_noDrop hnew _ _ hsafe⟩

/-- The abilities of a module where every type has drop. -/
def dropAll : SignatureToken → Except PartialVMError AbilitySet := fun _ => .ok ⟨true⟩

/-- A loop that copies its argument, after storing a value in its second
local, which it moves out at the end. -/
def loopFunction : FunctionView :=
  ⟨some 0, [.u64], [.u64], [], [.LdU64 0, .StLoc 1, .CopyLoc 0, .Pop, .LdTrue, .BrTrue 2, .MoveLoc 1, .Pop, .Ret]⟩

theorem verify_sound_loopFunction :
    (analysis.analyzeFunction 20 ⟨some 0, [⟨true⟩, ⟨true⟩], [.Available, .Unavailable]⟩ () loopFunction.code).isSome ∧
    ∃ initialState invMap, AbstractState.new dropAll loopFunction = .ok initialState ∧
      analysis.analyzeFunction 20 initialState () loopFunction.code = some (.ok (invMap, ())) ∧
      ∀ b c, Reach step (VMControlFlowGraph.new loopFunction.code) loopFunction.code (entryLocals loopFunction) b c →
        (∃ inv, invMap.find? b = some inv ∧ inv.post = .Success) ∧
        ∃ block, (VMControlFlowGraph.new loopFunction.code).blocks.find? b = some block ∧
          SafeRun step (Safe (NoDrop dropAll loopFunction)) (blockInstrs loopFunction.code block) c :=
  ⟨(verify_sound dropAll loopFunction).1 _ 20 (by decide) (by decide),
    (verify_sound dropAll loopFunction).2 20 (by decide)⟩

/-- A second move of the argument is rejected at its offset. -/
example : verify dropAll ⟨some 0, [.u64], [], [], [.MoveLoc 0, .Pop, .MoveLoc 0, .Pop, .Ret]⟩ 10 =
    some (.error (.error ⟨.MOVELOC_UNAVAILABLE_ERROR, some 2⟩)) := by
  decide

end LocalsSafety

end Diem.Move
