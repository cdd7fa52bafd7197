import Diem.Move.AbsInt
import Mathlib.Algebra.Order.BigOperators.Group.Finset
import Mathlib.Algebra.Group.Action.Defs

/-!
# What the worklist loop computes

`absint.rs` states what `analyze_function` leaves only in the comments of its
loop. This module proves it. When the worklist is empty and nothing crashed,
every recorded block has either failed, or run from its precondition to a
postcondition that the precondition of each successor covers (`LoopInv`,
kept by every round). Two consequences hold for any analysis whose join
covers both of its sides (`JoinLaws`):

* soundness (`analyzeFunction_sound`): suppose the transfer function keeps a
  description `R` of concrete states and passes an instruction only where a
  check `Safe` holds. If no block failed, every block that a concrete path
  from the entry reaches was analysed, from a precondition that describes the
  state the path brings. So every instruction on the path is safe;
* termination (`analyzeFunction_isSome`): suppose every `Changed` join lowers
  a bounded potential. Then the rounds are bounded by the number of block ids
  times the bound.

A concrete path runs through the basic blocks of the control-flow graph,
taking any successor at the end of a block (`Reach`).
-/

namespace Diem.Move

/-! ### Concrete runs through the blocks -/

section Concrete

variable {C : Type} (cstep : Bytecode → C → C) (Safe : Bytecode → C → Prop)

/-- The instructions of a block, in order. -/
def blockInstrs (code : List Bytecode) (block : BasicBlock) : List Bytecode :=
  (List.range' block.entry (block.exit + 1 - block.entry)).filterMap (code[·]?)

/-- The concrete state after a run of instructions. -/
def runInstrs (instrs : List Bytecode) (c : C) : C := instrs.foldl (fun c instr => cstep instr c) c

/-- Each instruction of a run is safe in the state it runs from. -/
def SafeRun : List Bytecode → C → Prop
  | [], _ => True
  | instr :: instrs, c => Safe instr c ∧ SafeRun instrs (cstep instr c)

@[simp] theorem runInstrs_nil (c : C) : runInstrs cstep [] c = c := rfl

@[simp] theorem runInstrs_cons (instr : Bytecode) (instrs : List Bytecode) (c : C) :
    runInstrs cstep (instr :: instrs) c = runInstrs cstep instrs (cstep instr c) := rfl

@[simp] theorem safeRun_nil (c : C) : SafeRun cstep Safe [] c := trivial

@[simp] theorem safeRun_cons (instr : Bytecode) (instrs : List Bytecode) (c : C) :
    SafeRun cstep Safe (instr :: instrs) c ↔ Safe instr c ∧ SafeRun cstep Safe instrs (cstep instr c) :=
  Iff.rfl

/-- The concrete states at the entry of the blocks along the paths of a
control-flow graph from the entry block, each block's instructions run in
order and any successor taken at its end. -/
inductive Reach (cfg : VMControlFlowGraph) (code : List Bytecode) (c₀ : C) : ℕ → C → Prop
  | entry : Reach cfg code c₀ 0 c₀
  | next {b c block s} : Reach cfg code c₀ b c → cfg.blocks.find? b = some block →
      s ∈ block.successors → Reach cfg code c₀ s (runInstrs cstep (blockInstrs code block) c)

end Concrete

attribute [ext] BlockInvariant

namespace Analysis

variable {Aux State : Type} (a : Analysis Aux State)

/-! ### One block -/

section Block

variable {C : Type} (cstep : Bytecode → C → C) (Safe : Bytecode → C → Prop) (R : C → State → Prop)

/-- The transfer function keeps the description `R` of concrete states, and
passes an instruction only where `Safe` holds. -/
def Simulates : Prop :=
  ∀ instr index lastIndex aux s aux' s' c, (a.execute instr index lastIndex).run (aux, s) = .ok () (aux', s') →
    R c s → Safe instr c ∧ R (cstep instr c) s'

variable {a cstep Safe R}

private theorem forM_executeOffset_simulates (hsim : a.Simulates cstep Safe R) (code : List Bytecode)
    (lastIndex : ℕ) : ∀ (offsets : List ℕ) aux s aux' s' c,
      (offsets.forM (a.executeOffset code lastIndex)).run (aux, s) = .ok () (aux', s') → R c s →
        SafeRun cstep Safe (offsets.filterMap (code[·]?)) c ∧
          R (runInstrs cstep (offsets.filterMap (code[·]?)) c) s' := by
  intro offsets
  induction offsets with
  | nil =>
    intro aux s aux' s' c h hc
    cases h
    exact ⟨trivial, hc⟩
  | cons offset offsets ih =>
    intro aux s aux' s' c h hc
    simp only [List.forM] at h
    obtain ⟨u, ⟨aux₁, s₁⟩, h₁, h₂⟩ := EStateM.run_bind_eq_ok h
    -- an offset out of the code panics, so the run went through an instruction
    cases hoff : code[offset]? with
    | none =>
      simp only [executeOffset, hoff] at h₁
      cases h₁
    | some instr =>
      simp only [executeOffset, hoff] at h₁
      obtain ⟨hsafe, hc₁⟩ := hsim _ _ _ _ _ _ _ c h₁ hc
      obtain ⟨hrun, hend⟩ := ih aux₁ s₁ aux' s' _ h₂ hc₁
      simp only [List.filterMap_cons, hoff, safeRun_cons, runInstrs_cons]
      exact ⟨⟨hsafe, hrun⟩, hend⟩

/-- A block that the transfer function runs from a state describing `c` is
safe from `c`, and its postcondition describes where it leaves `c`. -/
theorem executeBlock_simulates (hsim : a.Simulates cstep Safe R) {code : List Bytecode} {block : BasicBlock}
    {aux aux' : Aux} {s s' : State} {c : C} (h : (a.executeBlock code block).run (aux, s) = .ok () (aux', s'))
    (hc : R c s) :
    SafeRun cstep Safe (blockInstrs code block) c ∧ R (runInstrs cstep (blockInstrs code block) c) s' :=
  forM_executeOffset_simulates hsim code block.exit _ aux s aux' s' c h hc

variable (a) in
/-- The transfer function keeps the predicate `G` of states. -/
def Keeps (G : State → Prop) : Prop :=
  ∀ instr index lastIndex aux s aux' s', G s →
    (a.execute instr index lastIndex).run (aux, s) = .ok () (aux', s') → G s'

/-- A block run from a state satisfying `G` ends in one. -/
theorem Keeps.executeBlock {G : State → Prop} (hkeep : a.Keeps G) {code : List Bytecode} {block : BasicBlock}
    {aux aux' : Aux} {s s' : State} (hs : G s) (h : (a.executeBlock code block).run (aux, s) = .ok () (aux', s')) :
    G s' := by
  have hsim : a.Simulates (fun _ _ => ()) (fun _ _ => True) (fun (_ : Unit) s => G s) :=
    fun _ _ _ _ _ _ _ _ hrun hs => ⟨trivial, hkeep _ _ _ _ _ _ _ hs hrun⟩
  exact (@executeBlock_simulates _ _ a _ _ _ _ hsim code block aux aux' s s' () h hs).2

end Block

/-! ### The loop invariant -/

section Invariant

variable (le : State → State → Prop) (G : State → Prop)

/-- What the loop needs of `AbstractDomain::join`, for a preorder `le` ("is
covered by") on the states satisfying `G` (those the analysis builds): the
join of two of them is one, it covers both sides, and an `Unchanged` join
returns the precondition. -/
structure JoinLaws : Prop where
  refl : ∀ s, le s s
  trans : ∀ {s t u}, le s t → le t u → le s u
  join : ∀ {s t r u}, G s → G t → a.join s t = some (r, u) →
    G u ∧ le s u ∧ le t u ∧ (r = .Unchanged → u = s)

/-- Every precondition of the map satisfies `G`. -/
def Good (invMap : InvariantMap State) : Prop :=
  ∀ b inv, invMap.find? b = some inv → G inv.pre

variable (cfg : VMControlFlowGraph) (code : List Bytecode)

/-- A block off the worklist: its analysis failed, or it ran from its
precondition and the precondition of each successor covers what it left. -/
def Settled (invMap : InvariantMap State) (b : ℕ) (inv : BlockInvariant State) : Prop :=
  (∃ e, inv.post = .Error e) ∨
    inv.post = .Success ∧ ∃ block, cfg.blocks.find? b = some block ∧ ∃ aux aux' post,
      (a.executeBlock code block).run (aux, inv.pre) = .ok () (aux', post) ∧
      ∀ s ∈ block.successors, ∃ inv', invMap.find? s = some inv' ∧ le post inv'.pre

/-- The invariant of the loop of `analyze_function`: the precondition of the
entry covers the initial state, and every recorded block not on the worklist
is settled. -/
structure LoopInv (init : State) (invMap : InvariantMap State) (workList : List ℕ) : Prop where
  good : Good G invMap
  entry : ∃ inv, invMap.find? 0 = some inv ∧ le init inv.pre
  settled : ∀ b inv, invMap.find? b = some inv → b ∉ workList → a.Settled le cfg code invMap b inv

/-- Every precondition of `invMap` is covered by the one in `invMap'`. -/
def Grows (invMap invMap' : InvariantMap State) : Prop :=
  ∀ b inv, invMap.find? b = some inv → ∃ inv', invMap'.find? b = some inv' ∧ le inv.pre inv'.pre

/-- What propagating a postcondition to the successors `succs` does to the
invariant map and the worklist: each precondition only grows, and stays or
is pushed; each successor's precondition covers the postcondition; a block
recorded anew is pushed; nothing leaves the worklist; every precondition
satisfies `G`. -/
structure PropagateSpec (post : State) (succs : List ℕ) (acc acc' : InvariantMap State × List ℕ) : Prop where
  grows : ∀ b inv, acc.1.find? b = some inv → ∃ inv', acc'.1.find? b = some inv' ∧ le inv.pre inv'.pre ∧
    inv'.post = inv.post ∧ (inv'.pre = inv.pre ∨ b ∈ acc'.2)
  covers : ∀ s ∈ succs, ∃ inv', acc'.1.find? s = some inv' ∧ le post inv'.pre
  fresh : ∀ b, acc.1.find? b = none → (acc'.1.find? b).isSome → b ∈ acc'.2
  keeps : ∀ b ∈ acc.2, b ∈ acc'.2
  good : Good G acc'.1

variable {a le G cfg code}

theorem Grows.trans (laws : a.JoinLaws le G) {m₁ m₂ m₃ : InvariantMap State} (h₁ : Grows le m₁ m₂)
    (h₂ : Grows le m₂ m₃) : Grows le m₁ m₃ := by
  intro b inv hb
  obtain ⟨inv₂, hb₂, hle₂⟩ := h₁ b inv hb
  obtain ⟨inv₃, hb₃, hle₃⟩ := h₂ b inv₂ hb₂
  exact ⟨inv₃, hb₃, laws.trans hle₂ hle₃⟩

/-- Recording the postcondition of a block moves no precondition. -/
theorem grows_insert_post (laws : a.JoinLaws le G) {invMap : InvariantMap State} {b : ℕ}
    {inv : BlockInvariant State} (hb : invMap.find? b = some inv) (p : BlockPostcondition) :
    Grows le invMap (invMap.insert b { inv with post := p }) := by
  intro c ic hc
  by_cases hcb : c = b
  · subst hcb
    rw [hb] at hc
    cases hc
    exact ⟨{ inv with post := p }, by simp, laws.refl _⟩
  · exact ⟨ic, by simp [hcb, hc], laws.refl _⟩

theorem Settled.mono (laws : a.JoinLaws le G) {invMap invMap' : InvariantMap State} {b : ℕ}
    {inv : BlockInvariant State} (h : a.Settled le cfg code invMap b inv) (hg : Grows le invMap invMap') :
    a.Settled le cfg code invMap' b inv := by
  rcases h with herr | ⟨hsucc, block, hblock, aux, aux', post, hrun, hcover⟩
  · exact .inl herr
  · refine .inr ⟨hsucc, block, hblock, aux, aux', post, hrun, fun s hs => ?_⟩
    obtain ⟨inv', hs', hle⟩ := hcover s hs
    obtain ⟨inv'', hs'', hle'⟩ := hg s inv' hs'
    exact ⟨inv'', hs'', laws.trans hle hle'⟩

theorem Good.insert {invMap : InvariantMap State} (h : Good G invMap) {k : ℕ} {v : BlockInvariant State}
    (hv : G v.pre) : Good G (invMap.insert k v) := by
  intro b inv hb
  by_cases hbk : b = k
  · subst hbk
    rw [OrdMap.find?_insert, if_pos rfl, Option.some.injEq] at hb
    exact hb ▸ hv
  · rw [OrdMap.find?_insert, if_neg hbk] at hb
    exact h b inv hb

theorem Good.insert_post {invMap : InvariantMap State} (h : Good G invMap) {k : ℕ} {inv : BlockInvariant State}
    (hk : invMap.find? k = some inv) (p : BlockPostcondition) : Good G (invMap.insert k { inv with post := p }) :=
  h.insert (h k inv hk)

/-! ### Propagation to the successors -/

theorem PropagateSpec.nil (laws : a.JoinLaws le G) (post : State) {acc : InvariantMap State × List ℕ}
    (hgood : Good G acc.1) : PropagateSpec le G post [] acc acc where
  grows b inv hb := ⟨inv, hb, laws.refl _, rfl, .inl rfl⟩
  covers s hs := absurd hs List.not_mem_nil
  fresh b hb hb' := by rw [hb] at hb'; cases hb'
  keeps _ hb := hb
  good := hgood

theorem PropagateSpec.append (laws : a.JoinLaws le G) {post : State} {succs succs' : List ℕ}
    {acc acc' acc'' : InvariantMap State × List ℕ} (h : PropagateSpec le G post succs acc acc')
    (h' : PropagateSpec le G post succs' acc' acc'') : PropagateSpec le G post (succs ++ succs') acc acc'' where
  grows b inv hb := by
    obtain ⟨inv', hb', hle, hpost, hpre⟩ := h.grows b inv hb
    obtain ⟨inv'', hb'', hle', hpost', hpre'⟩ := h'.grows b inv' hb'
    refine ⟨inv'', hb'', laws.trans hle hle', hpost'.trans hpost, ?_⟩
    rcases hpre' with hpre' | hmem
    · rcases hpre with hpre | hmem
      · exact .inl (hpre'.trans hpre)
      · exact .inr (h'.keeps b hmem)
    · exact .inr hmem
  covers s hs := by
    rcases List.mem_append.1 hs with hs | hs
    · obtain ⟨inv', hs', hle⟩ := h.covers s hs
      obtain ⟨inv'', hs'', hle'⟩ := h'.grows s inv' hs'
      exact ⟨inv'', hs'', laws.trans hle hle'.1⟩
    · exact h'.covers s hs
  fresh b hb hb'' := by
    cases hb' : acc'.1.find? b with
    | none => exact h'.fresh b hb' hb''
    | some _ => exact h'.keeps b (h.fresh b hb (by simp [hb']))
  keeps b hb := h'.keeps b (h.keeps b hb)
  good := h'.good

/-- One successor: its precondition is joined with the postcondition, or it
is recorded with the postcondition as its precondition. -/
theorem propagateOne_spec (laws : a.JoinLaws le G) {post : State} (hpost : G post)
    {acc acc' : InvariantMap State × List ℕ} (hgood : Good G acc.1) {next : ℕ}
    (h : a.propagateOne post acc next = some acc') : PropagateSpec le G post [next] acc acc' := by
  unfold propagateOne at h
  cases hnext : acc.1.find? next with
  | some inv =>
    simp only [hnext] at h
    cases hjoin : a.join inv.pre post with
    | none => simp [hjoin] at h
    | some ru =>
      obtain ⟨r, u⟩ := ru
      obtain ⟨hu, hpre, hcover, hunch⟩ := laws.join (hgood next inv hnext) hpost hjoin
      cases r with
      | Unchanged =>
        -- nothing changes, and the old precondition already covers the postcondition
        simp only [hjoin, Option.bind_eq_bind, Option.bind_some, Option.pure_def, Option.some.injEq] at h
        subst h
        refine { (PropagateSpec.nil laws post hgood) with covers := fun s hs => ?_ }
        rw [List.mem_singleton] at hs
        subst hs
        exact ⟨inv, hnext, hunch rfl ▸ hcover⟩
      | Changed =>
        simp only [hjoin, Option.bind_eq_bind, Option.bind_some, Option.pure_def, Option.some.injEq] at h
        subst h
        refine ⟨fun b ib hb => ?_, fun s hs => ?_, fun b _ _ => ?_, fun b hb => List.mem_cons_of_mem _ hb,
          hgood.insert hu⟩
        · by_cases hbn : b = next
          · subst hbn
            rw [hnext] at hb
            cases hb
            exact ⟨{ inv with pre := u }, by simp, hpre, rfl, .inr List.mem_cons_self⟩
          · exact ⟨ib, by simp [hbn, hb], laws.refl _, rfl, .inl rfl⟩
        · rw [List.mem_singleton] at hs
          subst hs
          exact ⟨{ inv with pre := u }, by simp, hcover⟩
        · by_cases hbn : b = next
          · subst hbn
            exact List.mem_cons_self
          · simp_all
  | none =>
    simp only [hnext, Option.pure_def, Option.some.injEq] at h
    subst h
    refine ⟨fun b ib hb => ?_, fun s hs => ?_, fun b _ _ => ?_, fun b hb => List.mem_cons_of_mem _ hb,
      hgood.insert hpost⟩
    · have hbn : b ≠ next := by
        rintro rfl
        rw [hnext] at hb
        cases hb
      exact ⟨ib, by simp [hbn, hb], laws.refl _, rfl, .inl rfl⟩
    · rw [List.mem_singleton] at hs
      subst hs
      exact ⟨⟨post, .Success⟩, by simp, laws.refl _⟩
    · by_cases hbn : b = next
      · subst hbn
        exact List.mem_cons_self
      · simp_all

theorem propagate_spec (laws : a.JoinLaws le G) {post : State} (hpost : G post) :
    ∀ (succs : List ℕ) (acc acc' : InvariantMap State × List ℕ), Good G acc.1 →
      succs.foldlM (a.propagateOne post) acc = some acc' → PropagateSpec le G post succs acc acc'
  | [], acc, acc', hgood, h => by
    cases h
    exact PropagateSpec.nil laws post hgood
  | next :: succs, acc, acc', hgood, h => by
    rw [List.foldlM_cons] at h
    obtain ⟨acc₁, h₁, h₂⟩ := Option.bind_eq_some_iff.1 h
    have hspec₁ := propagateOne_spec laws hpost hgood h₁
    exact hspec₁.append laws (propagate_spec laws hpost succs acc₁ acc' hspec₁.good h₂)

/-! ### One round, and the whole loop -/

variable {init : State}

/-- A round whose block fails: the error is recorded, and the invariant
holds of the rest of the worklist. -/
theorem LoopInv.error (laws : a.JoinLaws le G) {invMap : InvariantMap State} {b : ℕ} {workList : List ℕ}
    {inv : BlockInvariant State} (hI : a.LoopInv le G cfg code init invMap (b :: workList))
    (hb : invMap.find? b = some inv) (e : PartialVMError) :
    a.LoopInv le G cfg code init (invMap.insert b { inv with post := .Error e }) workList := by
  have hg := grows_insert_post laws hb (.Error e)
  refine ⟨hI.good.insert_post hb _, ?_, ?_⟩
  · obtain ⟨inv₀, h₀, hle⟩ := hI.entry
    obtain ⟨inv₀', h₀', hle'⟩ := hg 0 inv₀ h₀
    exact ⟨inv₀', h₀', laws.trans hle hle'⟩
  · intro c ic hc hnot
    by_cases hcb : c = b
    · subst hcb
      rw [OrdMap.find?_insert, if_pos rfl, Option.some.injEq] at hc
      exact .inl ⟨e, by rw [← hc]⟩
    · rw [OrdMap.find?_insert, if_neg hcb] at hc
      have hnot' : c ∉ b :: workList := by simp [hcb, hnot]
      exact (hI.settled c ic hc hnot').mono laws hg

/-- A round whose block succeeds: once its postcondition is propagated, the
block is settled and the invariant holds of the new worklist. -/
theorem LoopInv.success (laws : a.JoinLaws le G) (hkeep : a.Keeps G) {invMap invMap' : InvariantMap State} {b : ℕ}
    {workList workList' : List ℕ} {inv : BlockInvariant State} {block : BasicBlock} {aux aux' : Aux} {post : State}
    (hI : a.LoopInv le G cfg code init invMap (b :: workList)) (hb : invMap.find? b = some inv)
    (hblock : cfg.blocks.find? b = some block)
    (hrun : (a.executeBlock code block).run (aux, inv.pre) = .ok () (aux', post))
    (hprop : a.propagate post block.successors (invMap.insert b { inv with post := .Success }) workList =
      some (invMap', workList')) :
    a.LoopInv le G cfg code init invMap' workList' := by
  have hpost := hkeep.executeBlock (hI.good b inv hb) hrun
  have hspec := propagate_spec laws hpost block.successors _ _ (hI.good.insert_post hb .Success) hprop
  have hg : Grows le invMap invMap' := (grows_insert_post laws hb .Success).trans laws fun c ic hc => by
    obtain ⟨ic', hc', hle, -⟩ := hspec.grows c ic hc
    exact ⟨ic', hc', hle⟩
  refine ⟨hspec.good, ?_, ?_⟩
  · obtain ⟨inv₀, h₀, hle⟩ := hI.entry
    obtain ⟨inv₀', h₀', hle'⟩ := hg 0 inv₀ h₀
    exact ⟨inv₀', h₀', laws.trans hle hle'⟩
  · intro c ic hc hnot
    cases h₁ : (invMap.insert b { inv with post := .Success }).find? c with
    | none => exact absurd (hspec.fresh c h₁ (by simp [hc])) hnot
    | some ic₁ =>
      -- off the new worklist, the block kept its precondition and postcondition
      obtain ⟨ic', hc', -, hpost, hpre⟩ := hspec.grows c ic₁ h₁
      rw [hc] at hc'
      cases hc'
      have hic : ic = ic₁ := BlockInvariant.ext (hpre.resolve_right hnot) hpost
      subst hic
      by_cases hcb : c = b
      · subst hcb
        rw [OrdMap.find?_insert, if_pos rfl, Option.some.injEq] at h₁
        subst h₁
        exact .inr ⟨rfl, block, hblock, aux, aux', post, hrun, hspec.covers⟩
      · rw [OrdMap.find?_insert, if_neg hcb] at h₁
        have hnot' : c ∉ b :: workList := by
          simp only [List.mem_cons, hcb, false_or]
          exact fun hc => hnot (hspec.keeps c hc)
        exact (hI.settled c _ h₁ hnot').mono laws hg

theorem analyzeLoop_loopInv (laws : a.JoinLaws le G) (hkeep : a.Keeps G) :
    ∀ (fuel : ℕ) (workList : List ℕ) (invMap : InvariantMap State) (aux : Aux) invMap' aux',
      a.LoopInv le G cfg code init invMap workList →
      a.analyzeLoop cfg code fuel workList invMap aux = some (.ok (invMap', aux')) →
        a.LoopInv le G cfg code init invMap' [] := by
  intro fuel
  induction fuel with
  | zero => intro _ _ _ _ _ _ h; cases h
  | succ fuel ih =>
    intro workList invMap aux invMap' aux' hI h
    cases workList with
    | nil =>
      simp only [analyzeLoop, Option.some.injEq, Except.ok.injEq, Prod.mk.injEq] at h
      obtain ⟨rfl, -⟩ := h
      exact hI
    | cons b workList =>
      simp only [analyzeLoop] at h
      rcases hinv : invMap.find? b with _ | inv <;> rcases hblock : cfg.blocks.find? b with _ | block <;>
        simp only [hinv, hblock] at h
      · cases h
      · cases h
      · cases h
      rcases hrun : (a.executeBlock code block).run (aux, inv.pre) with ⟨u, aux₁, post⟩ | ⟨e | _, aux₁, post⟩ <;>
        simp only [hrun] at h
      · rcases hprop : a.propagate post block.successors (invMap.insert b { inv with post := .Success }) workList
          with _ | ⟨invMap₁, workList₁⟩ <;> simp only [hprop] at h
        · cases h
        · exact ih _ _ _ _ _ (hI.success laws hkeep hinv hblock hrun hprop) h
      · exact ih _ _ _ _ _ (hI.error laws hinv e) h
      · cases h

/-- When `analyze_function` ends without a crash, every recorded block is
settled and the entry's precondition covers the initial state. -/
theorem analyzeFunction_loopInv (laws : a.JoinLaws le G) (hkeep : a.Keeps G) (hinit : G init) {fuel : ℕ}
    {aux aux' : Aux} {invMap : InvariantMap State}
    (h : a.analyzeFunction fuel init aux code = some (.ok (invMap, aux'))) :
    a.LoopInv le G (VMControlFlowGraph.new code) code init invMap [] := by
  have hgood : Good G ((∅ : InvariantMap State).insert 0 ⟨init, .Unprocessed⟩) :=
    Good.insert (fun _ _ h => by simp at h) hinit
  refine analyzeLoop_loopInv laws hkeep fuel [0] _ aux invMap aux'
    ⟨hgood, ⟨⟨init, .Unprocessed⟩, by simp, laws.refl init⟩, ?_⟩ h
  intro b inv hb hnot
  have hb0 : b = 0 := by
    by_contra hne
    simp [hne] at hb
  subst hb0
  exact absurd (List.mem_singleton_self 0) hnot

end Invariant

/-! ### Soundness -/

section Soundness

variable {a} {le : State → State → Prop} {G : State → Prop} {cfg : VMControlFlowGraph} {code : List Bytecode}
  {C : Type} {cstep : Bytecode → C → C} {Safe : Bytecode → C → Prop} {R : C → State → Prop}

/-- A settled block that did not fail ran safely from any concrete state its
precondition describes, and the precondition of each successor describes
where it left that state. -/
theorem Settled.sound (hsim : a.Simulates cstep Safe R)
    (hR : ∀ {c s t}, R c s → le s t → R c t) {invMap : InvariantMap State} {b : ℕ}
    {inv : BlockInvariant State} (h : a.Settled le cfg code invMap b inv) (hok : ∀ e, inv.post ≠ .Error e)
    {c : C} (hc : R c inv.pre) :
    inv.post = .Success ∧ ∃ block, cfg.blocks.find? b = some block ∧ SafeRun cstep Safe (blockInstrs code block) c ∧
      ∀ s ∈ block.successors, ∃ inv', invMap.find? s = some inv' ∧
        R (runInstrs cstep (blockInstrs code block) c) inv'.pre := by
  rcases h with ⟨e, herr⟩ | ⟨hsucc, block, hblock, aux, aux', post, hrun, hcover⟩
  · exact absurd herr (hok e)
  · obtain ⟨hsafe, hend⟩ := executeBlock_simulates hsim hrun hc
    refine ⟨hsucc, block, hblock, hsafe, fun s hs => ?_⟩
    obtain ⟨inv', hs', hle⟩ := hcover s hs
    exact ⟨inv', hs', hR hend hle⟩

/-- Along every concrete path, each block reached has been recorded with a
precondition that describes the state the path brings. -/
theorem LoopInv.reach (hsim : a.Simulates cstep Safe R)
    (hR : ∀ {c s t}, R c s → le s t → R c t) {init : State} {invMap : InvariantMap State}
    (hI : a.LoopInv le G cfg code init invMap []) (hok : ∀ b inv, invMap.find? b = some inv → ∀ e, inv.post ≠ .Error e)
    {c₀ : C} (h₀ : R c₀ init) {b : ℕ} {c : C} (h : Reach cstep cfg code c₀ b c) :
    ∃ inv, invMap.find? b = some inv ∧ R c inv.pre := by
  induction h with
  | entry =>
    obtain ⟨inv, h0, hle⟩ := hI.entry
    exact ⟨inv, h0, hR h₀ hle⟩
  | @next b c block s _ hblock hs ih =>
    obtain ⟨inv, hb, hc⟩ := ih
    obtain ⟨-, block', hblock', -, hcover⟩ :=
      (hI.settled b inv hb List.not_mem_nil).sound hsim hR (hok b inv hb) hc
    rw [hblock] at hblock'
    cases hblock'
    exact hcover s hs

/-- **Soundness of the worklist interpreter.** If `analyze_function` ends
with no block failed, every block a concrete path from the entry reaches has
been processed, and every instruction on the path passes the transfer
function's check. -/
theorem analyzeFunction_sound (laws : a.JoinLaws le G) (hkeep : a.Keeps G) (hsim : a.Simulates cstep Safe R)
    (hR : ∀ {c s t}, R c s → le s t → R c t) {fuel : ℕ} {init : State} (hinit : G init) {aux aux' : Aux}
    {invMap : InvariantMap State} (h : a.analyzeFunction fuel init aux code = some (.ok (invMap, aux')))
    (hok : ∀ b inv, invMap.find? b = some inv → ∀ e, inv.post ≠ .Error e) {c₀ : C} (h₀ : R c₀ init) {b : ℕ}
    {c : C} (hreach : Reach cstep (VMControlFlowGraph.new code) code c₀ b c) :
    (∃ inv, invMap.find? b = some inv ∧ inv.post = .Success ∧ R c inv.pre) ∧
      ∃ block, (VMControlFlowGraph.new code).blocks.find? b = some block ∧
        SafeRun cstep Safe (blockInstrs code block) c := by
  have hI := analyzeFunction_loopInv laws hkeep hinit h
  obtain ⟨inv, hb, hc⟩ := hI.reach hsim hR hok h₀ hreach
  obtain ⟨hsucc, block, hblock, hsafe, -⟩ :=
    (hI.settled b inv hb List.not_mem_nil).sound hsim hR (hok b inv hb) hc
  exact ⟨⟨inv, hb, hsucc, hc⟩, block, hblock, hsafe⟩

end Soundness

/-! ### Termination -/

section Termination

variable (pot : State → ℕ) (P : ℕ) (I : State → Prop)

/-- A potential on the states satisfying `I`, at most `P`, that a `Changed`
join lowers (and whose result satisfies `I`). -/
structure Potential : Prop where
  le_bound : ∀ {s}, I s → pot s ≤ P
  join : ∀ {s t u}, I s → I t → a.join s t = some (.Changed, u) → I u ∧ pot u < pot s

/-- The block ids the loop can record: the entry, and every successor of a
block. -/
def blockTargets (cfg : VMControlFlowGraph) : Finset ℕ :=
  insert 0 (cfg.blocks.entries.flatMap (·.2.successors)).toFinset

/-- The weight of a block id: the potential of its precondition once it is
recorded, `P + 1` before. -/
def weight (invMap : InvariantMap State) (b : ℕ) : ℕ :=
  match invMap.find? b with
  | some inv => pot inv.pre
  | none => P + 1

/-- What bounds the rounds left: the weights of the block ids, and the
worklist. -/
def measure (cfg : VMControlFlowGraph) (invMap : InvariantMap State) (workList : List ℕ) : ℕ :=
  ∑ b ∈ blockTargets cfg, weight pot P invMap b + workList.length

/-- The maps the loop meets: the ids recorded are targets, and their
preconditions satisfy `I`. -/
def Bounded (cfg : VMControlFlowGraph) (invMap : InvariantMap State) : Prop :=
  ∀ b inv, invMap.find? b = some inv → b ∈ blockTargets cfg ∧ I inv.pre

variable {a pot P I} {cfg : VMControlFlowGraph}

theorem successor_mem_blockTargets {b : ℕ} {block : BasicBlock} (h : cfg.blocks.find? b = some block) {s : ℕ}
    (hs : s ∈ block.successors) : s ∈ blockTargets cfg := by
  apply Finset.mem_insert_of_mem
  rw [List.mem_toFinset, List.mem_flatMap]
  exact ⟨(b, block), (OrdMap.find?_eq_some_iff _ _ _).1 h, hs⟩

theorem weight_insert (invMap : InvariantMap State) (k : ℕ) (v : BlockInvariant State) (b : ℕ) :
    weight pot P (invMap.insert k v) b = if b = k then pot v.pre else weight pot P invMap b := by
  by_cases h : b = k <;> simp [weight, h]

/-- Recording a postcondition leaves the weights alone. -/
theorem weight_insert_post {invMap : InvariantMap State} {k : ℕ} {inv : BlockInvariant State}
    (hk : invMap.find? k = some inv) (p : BlockPostcondition) :
    weight pot P (invMap.insert k { inv with post := p }) = weight pot P invMap := by
  funext b
  rw [weight_insert]
  split_ifs with h
  · subst h
    simp [weight, hk]
  · rfl

/-- Recording a block with a precondition below its weight lowers the sum of
the weights. -/
theorem sum_weight_insert_lt {invMap : InvariantMap State} {k : ℕ} {v : BlockInvariant State}
    (hk : k ∈ blockTargets cfg) (hlt : pot v.pre < weight pot P invMap k) :
    ∑ b ∈ blockTargets cfg, weight pot P (invMap.insert k v) b < ∑ b ∈ blockTargets cfg, weight pot P invMap b := by
  apply Finset.sum_lt_sum
  · intro b _
    rw [weight_insert]
    split_ifs with h
    · subst h
      exact hlt.le
    · exact le_rfl
  · exact ⟨k, hk, by rw [weight_insert, if_pos rfl]; exact hlt⟩

theorem Bounded.insert {invMap : InvariantMap State} (h : Bounded I cfg invMap) {k : ℕ}
    {v : BlockInvariant State} (hk : k ∈ blockTargets cfg) (hv : I v.pre) : Bounded I cfg (invMap.insert k v) := by
  intro b inv hb
  by_cases hbk : b = k
  · subst hbk
    rw [OrdMap.find?_insert, if_pos rfl, Option.some.injEq] at hb
    subst hb
    exact ⟨hk, hv⟩
  · rw [OrdMap.find?_insert, if_neg hbk] at hb
    exact h b inv hb

theorem Bounded.weight_le {invMap : InvariantMap State} (pf : a.Potential pot P I) (h : Bounded I cfg invMap)
    (b : ℕ) : weight pot P invMap b ≤ P + 1 := by
  unfold weight
  cases hb : invMap.find? b with
  | none => exact le_rfl
  | some inv => exact (pf.le_bound (h b inv hb).2).trans (Nat.le_succ P)

theorem Bounded.insert_post {invMap : InvariantMap State} (h : Bounded I cfg invMap) {k : ℕ}
    {inv : BlockInvariant State} (hk : invMap.find? k = some inv) (p : BlockPostcondition) :
    Bounded I cfg (invMap.insert k { inv with post := p }) :=
  h.insert (h k inv hk).1 (h k inv hk).2

/-- One successor: a push comes with a precondition of lower weight, so the
measure does not grow. -/
theorem propagateOne_measure (pf : a.Potential pot P I) {post : State} (hpost : I post)
    {acc acc' : InvariantMap State × List ℕ} {next : ℕ} (hnext : next ∈ blockTargets cfg)
    (hb : Bounded I cfg acc.1) (h : a.propagateOne post acc next = some acc') :
    Bounded I cfg acc'.1 ∧ measure pot P cfg acc'.1 acc'.2 ≤ measure pot P cfg acc.1 acc.2 := by
  unfold propagateOne at h
  cases hfind : acc.1.find? next with
  | some inv =>
    simp only [hfind] at h
    cases hjoin : a.join inv.pre post with
    | none => simp [hjoin] at h
    | some ru =>
      obtain ⟨r, u⟩ := ru
      cases r with
      | Unchanged =>
        simp only [hjoin, Option.bind_eq_bind, Option.bind_some, Option.pure_def, Option.some.injEq] at h
        subst h
        exact ⟨hb, le_rfl⟩
      | Changed =>
        simp only [hjoin, Option.bind_eq_bind, Option.bind_some, Option.pure_def, Option.some.injEq] at h
        subst h
        obtain ⟨hu, hlt⟩ := pf.join (hb next inv hfind).2 hpost hjoin
        have hlt' : pot ({ inv with pre := u } : BlockInvariant State).pre < weight pot P acc.1 next := by
          simpa [weight, hfind] using hlt
        have hsum := sum_weight_insert_lt hnext hlt'
        refine ⟨hb.insert hnext hu, ?_⟩
        simp only [measure, List.length_cons]
        omega
  | none =>
    simp only [hfind, Option.pure_def, Option.some.injEq] at h
    subst h
    have hlt : pot (⟨post, .Success⟩ : BlockInvariant State).pre < weight pot P acc.1 next := by
      simpa [weight, hfind] using Nat.lt_succ_of_le (pf.le_bound hpost)
    have hsum := sum_weight_insert_lt hnext hlt
    refine ⟨hb.insert hnext hpost, ?_⟩
    simp only [measure, List.length_cons]
    omega

theorem propagate_measure (pf : a.Potential pot P I) {post : State} (hpost : I post) :
    ∀ (succs : List ℕ) (acc acc' : InvariantMap State × List ℕ), (∀ s ∈ succs, s ∈ blockTargets cfg) →
      Bounded I cfg acc.1 → succs.foldlM (a.propagateOne post) acc = some acc' →
        Bounded I cfg acc'.1 ∧ measure pot P cfg acc'.1 acc'.2 ≤ measure pot P cfg acc.1 acc.2
  | [], acc, acc', _, hb, h => by
    cases h
    exact ⟨hb, le_rfl⟩
  | next :: succs, acc, acc', hs, hb, h => by
    rw [List.foldlM_cons] at h
    obtain ⟨acc₁, h₁, h₂⟩ := Option.bind_eq_some_iff.1 h
    obtain ⟨hb₁, hle₁⟩ := propagateOne_measure pf hpost (hs next List.mem_cons_self) hb h₁
    obtain ⟨hb₂, hle₂⟩ :=
      propagate_measure pf hpost succs acc₁ acc' (fun s h => hs s (List.mem_cons_of_mem _ h)) hb₁ h₂
    exact ⟨hb₂, hle₂.trans hle₁⟩

/-- **The loop ends**: with more fuel than the measure, it returns. -/
theorem analyzeLoop_isSome (pf : a.Potential pot P I) (hkeep : a.Keeps I) (code : List Bytecode) :
    ∀ (fuel : ℕ) (workList : List ℕ) (invMap : InvariantMap State) (aux : Aux),
      Bounded I cfg invMap → measure pot P cfg invMap workList < fuel →
        (a.analyzeLoop cfg code fuel workList invMap aux).isSome := by
  intro fuel
  induction fuel with
  | zero => intro _ _ _ _ h; exact absurd h (Nat.not_lt_zero _)
  | succ fuel ih =>
    intro workList invMap aux hb hlt
    cases workList with
    | nil => rfl
    | cons b workList =>
      simp only [analyzeLoop]
      rcases hinv : invMap.find? b with _ | inv <;> rcases hblock : cfg.blocks.find? b with _ | block <;>
        simp only
      · rfl
      · rfl
      · rfl
      -- recording the postcondition keeps the weights; the pop lowers the measure
      have hpop : ∀ p, measure pot P cfg (invMap.insert b { inv with post := p }) workList < fuel := by
        intro p
        have h : weight pot P (invMap.insert b { inv with post := p }) = weight pot P invMap :=
          weight_insert_post hinv p
        simp only [measure, List.length_cons, h] at hlt ⊢
        omega
      rcases hrun : (a.executeBlock code block).run (aux, inv.pre) with ⟨u, aux₁, post⟩ | ⟨e | _, aux₁, post⟩ <;>
        simp only
      · have hpost := hkeep.executeBlock (hb b inv hinv).2 hrun
        rcases hprop : a.propagate post block.successors (invMap.insert b { inv with post := .Success }) workList
          with _ | ⟨invMap₁, workList₁⟩ <;> simp only
        · rfl
        · obtain ⟨hb₁, hle⟩ := propagate_measure pf hpost block.successors _ _
            (fun s hs => successor_mem_blockTargets hblock hs) (hb.insert_post hinv .Success) hprop
          exact ih _ _ _ hb₁ (lt_of_le_of_lt hle (hpop .Success))
      · exact ih _ _ _ (hb.insert_post hinv (.Error e)) (hpop (.Error e))
      · rfl

/-- **`analyze_function` terminates** for a domain with a potential: fuel
beyond the number of block ids times `P + 1` is enough. -/
theorem analyzeFunction_isSome (pf : a.Potential pot P I) (hkeep : a.Keeps I) {code : List Bytecode} {init : State} (hinit : I init)
    {fuel : ℕ} (hfuel : (blockTargets (VMControlFlowGraph.new code)).card * (P + 1) + 1 < fuel) (aux : Aux) :
    (a.analyzeFunction fuel init aux code).isSome := by
  have hb : Bounded I (VMControlFlowGraph.new code) ((∅ : InvariantMap State).insert 0 ⟨init, .Unprocessed⟩) :=
    fun b inv hb => (Bounded.insert (fun _ _ h => by simp at h) (Finset.mem_insert_self 0 _) hinit) b inv hb
  apply analyzeLoop_isSome pf hkeep code fuel [0] _ aux hb
  have hsum := Finset.sum_le_card_nsmul (blockTargets (VMControlFlowGraph.new code))
    (fun b => weight pot P ((∅ : InvariantMap State).insert 0 ⟨init, .Unprocessed⟩) b) (P + 1)
    (fun b _ => hb.weight_le pf b)
  simp only [measure, List.length_singleton, smul_eq_mul] at hsum ⊢
  omega

end Termination

end Analysis

end Diem.Move
