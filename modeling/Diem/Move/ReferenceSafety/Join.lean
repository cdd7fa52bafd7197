import Diem.Move.ReferenceSafety.AbstractState
import Diem.Move.BorrowGraph.Join

/-!
# Joining abstract states

`AbstractState::join_` and `AbstractDomain::join` in
`reference_safety/abstract_state.rs`, over two states holding the same locals.
No reference is then released, the joined locals are those of the state, and the
joined graph is the join of the two graphs. The loop body of `join_` over the
locals is `joinLocal`.

`join` does not panic, and reports `Unchanged` exactly when the graph of the
state covers the other graph (`join_of_locals_eq`). With the laws of
`Move.BorrowGraph.Join`, **`borrowGraph_join_semilattice`**: `leq` is a preorder
on graphs over the same ids satisfying `check_invariant`, `join` is a least upper
bound for it, and `join` of states holding the same locals reports as above.
-/

namespace Diem.Move

namespace AbstractState

/-- The loop body of `join_` for the local `idx`. -/
def joinLocal (s other : AbstractState) (acc : OrdMap ℕ AbstractValue × BorrowGraph Label × BorrowGraph Label)
    (idx : ℕ) : Option (OrdMap ℕ AbstractValue × BorrowGraph Label × BorrowGraph Label) :=
  match s.locals.find? idx, other.locals.find? idx with
  | none, none => some acc
  | some v, none => match v with
    | .Reference id => do
      let g ← acc.2.1.release id
      pure (acc.1, g, acc.2.2)
    | .NonReference => some acc
  | none, some v => match v with
    | .Reference id => do
      let g ← acc.2.2.release id
      pure (acc.1, acc.2.1, g)
    | .NonReference => some acc
  | some v1, some v2 => if v1 = v2 then some (acc.1.insert idx v1, acc.2) else none

theorem isCanonical_iff {s : AbstractState} :
    s.isCanonical = true ↔ s.numLocals + 1 = s.nextId ∧
      ∀ idx v, s.locals.find? idx = some v → ∀ id, v.refId = some id → id = idx := by
  simp only [isCanonical, Bool.and_eq_true, beq_iff_eq, List.all_eq_true, Prod.forall,
    ← OrdMap.find?_eq_some_iff]
  refine and_congr_right fun _ => forall₂_congr fun idx v => imp_congr_right fun _ => ?_
  cases v <;> simp [AbstractValue.refId]

section SameLocals

variable {s other : AbstractState}

/-- With the same locals on both sides, the loop of `join_` copies the
locals it visits and releases nothing. -/
theorem foldlM_joinLocal_of_locals_eq (hloc : s.locals = other.locals) :
    ∀ (l : List ℕ) (L : OrdMap ℕ AbstractValue) (g₁ g₂ : BorrowGraph Label), l.Nodup →
      (∀ k ∈ l, L.find? k = none) →
      ∃ L', l.foldlM (joinLocal s other) (L, g₁, g₂) = some (L', g₁, g₂) ∧
        ∀ k, L'.find? k = if k ∈ l then s.locals.find? k else L.find? k
  | [], L, g₁, g₂, _, _ => ⟨L, rfl, fun k => by simp⟩
  | idx :: l, L, g₁, g₂, hnd, hnone => by
    rw [List.nodup_cons] at hnd
    obtain ⟨L₁, hstep, hL₁⟩ : ∃ L₁, joinLocal s other (L, g₁, g₂) idx = some (L₁, g₁, g₂) ∧
        ∀ k, L₁.find? k = if k = idx then s.locals.find? idx else L.find? k := by
      cases hv : s.locals.find? idx with
      | none =>
        refine ⟨L, by simp [joinLocal, ← hloc, hv], fun k => ?_⟩
        split_ifs with hk
        · rw [hk, hnone idx List.mem_cons_self]
        · rfl
      | some v => exact ⟨L.insert idx v, by simp [joinLocal, ← hloc, hv], fun k => by simp⟩
    obtain ⟨L', hfold, hL'⟩ := foldlM_joinLocal_of_locals_eq hloc l L₁ g₁ g₂ hnd.2 fun k hk => by
      rw [hL₁, if_neg (fun h : k = idx => hnd.1 (h ▸ hk)), hnone k (List.mem_cons_of_mem _ hk)]
    refine ⟨L', by rw [List.foldlM_cons, hstep]; exact hfold, fun k => ?_⟩
    rw [hL', hL₁]
    by_cases hk : k = idx
    · subst hk
      simp [hnd.1]
    · simp [hk]

/-- **`join_` on states holding the same locals**: the locals are kept and
the graphs joined. -/
theorem joinInner_of_locals_eq (hpre : (s.currentFunction == other.currentFunction && s.isCanonical &&
      other.isCanonical && s.nextId == other.nextId && s.numLocals == other.numLocals) = true)
    (hloc : s.locals = other.locals) :
    ∃ locals : OrdMap ℕ AbstractValue,
      (∀ idx, locals.find? idx = if idx < s.numLocals then s.locals.find? idx else none) ∧
      s.join_ other = (s.borrowGraph.join other.borrowGraph).map fun bg =>
        ⟨s.currentFunction, locals, bg, s.numLocals, s.nextId⟩ := by
  obtain ⟨L, hfold, hL⟩ := foldlM_joinLocal_of_locals_eq hloc (List.range s.numLocals) ∅ s.borrowGraph
    other.borrowGraph List.nodup_range fun k _ => OrdMap.find?_empty k
  refine ⟨L, fun idx => by simp [hL, List.mem_range], ?_⟩
  unfold join_
  rw [hpre]
  simp only [Bool.not_true, Bool.false_eq_true, if_false]
  -- the loop of `join_` is the fold of `joinLocal`, up to unfolding
  erw [hfold]
  simp only [Option.bind_eq_bind, Option.bind_some]
  cases s.borrowGraph.join other.borrowGraph <;> rfl

/-- **`join` on states holding the same locals** does not panic, and reports
`Unchanged` exactly when the graph of the state covers the other graph. -/
theorem join_of_locals_eq (hpre : (s.currentFunction == other.currentFunction && s.isCanonical &&
      other.isCanonical && s.nextId == other.nextId && s.numLocals == other.numLocals) = true)
    (hloc : s.locals = other.locals) (hids : BorrowGraph.SameIds other.borrowGraph s.borrowGraph)
    (hwf : s.borrowGraph.WellFormed) (hwf' : other.borrowGraph.WellFormed) :
    ∃ r, s.join other = some r ∧
      (r.1 = .Unchanged ↔ Cover.Covers s.borrowGraph.edges other.borrowGraph.edges) := by
  obtain ⟨L, hL, hinner⟩ := joinInner_of_locals_eq hpre hloc
  obtain ⟨j, hj, hjids, hjwf, hjedges⟩ := BorrowGraph.join_spec hids hwf hwf'
  have hs : s.isCanonical = true := by
    simp only [Bool.and_eq_true] at hpre
    exact hpre.1.1.1.2
  -- the joined state: canonical, with the locals of `s`, and the joined graph
  have hcanon : (⟨s.currentFunction, L, j, s.numLocals, s.nextId⟩ : AbstractState).isCanonical = true := by
    refine isCanonical_iff.2 ⟨(isCanonical_iff.1 hs).1, fun idx v hv => ?_⟩
    rw [hL] at hv
    split_ifs at hv
    exact (isCanonical_iff.1 hs).2 idx v hv
  have hlocals : ((List.range s.numLocals).all fun idx => s.locals.find? idx == L.find? idx) = true := by
    refine List.all_eq_true.2 fun idx hidx => ?_
    rw [hL, if_pos (List.mem_range.1 hidx), beq_self_eq_true]
  have hjs : ∀ p, (j.refs.find? p).isSome → (s.borrowGraph.refs.find? p).isSome := fun p hp => (hjids p).1 hp
  obtain ⟨b, hb⟩ := Option.isSome_iff_exists.1 (BorrowGraph.leq_isSome hjs hjwf)
  have hbiff := (BorrowGraph.leq_eq_some_iff hjs hjwf b).1 hb
  rw [hjedges, Cover.covers_join_iff] at hbiff
  refine ⟨if b then (.Unchanged, s) else (.Changed, ⟨s.currentFunction, L, j, s.numLocals, s.nextId⟩), ?_, ?_⟩
  · unfold join
    rw [hinner, hj, Option.map_some]
    simp only [Option.bind_eq_bind, Option.bind_some, hcanon, Bool.not_true, Bool.false_eq_true, if_false]
    erw [hlocals, hb]
    cases b <;> rfl
  · cases b
    · simpa using hbiff
    · simpa using hbiff

end SameLocals

end AbstractState

open BorrowGraph in
/-- **Borrow graphs form a join-semilattice up to equivalence**: over graphs
with the same ids satisfying `check_invariant`, `leq` is reflexive and
transitive and `join` is a least upper bound for it; and `join` of two states
holding the same locals reports `Unchanged` exactly when every edge of the
other graph is covered by an edge of the state's graph. -/
theorem borrowGraph_join_semilattice {Lbl : Type} [LinearOrder Lbl] :
    (∀ a : BorrowGraph Lbl, a.checkInvariant = true → a.leq a = some true) ∧
    (∀ a b c : BorrowGraph Lbl, a.refs.keys = b.refs.keys → b.refs.keys = c.refs.keys →
      b.checkInvariant = true → c.checkInvariant = true →
      a.leq b = some true → b.leq c = some true → a.leq c = some true) ∧
    (∀ a b : BorrowGraph Lbl, a.refs.keys = b.refs.keys → a.checkInvariant = true → b.checkInvariant = true →
      ∃ j, a.join b = some j ∧ j.checkInvariant = true ∧ j.leq a = some true ∧ j.leq b = some true ∧
        ∀ c : BorrowGraph Lbl, c.refs.keys = a.refs.keys → c.leq a = some true → c.leq b = some true →
          c.leq j = some true) ∧
    (∀ s other : AbstractState, s.currentFunction = other.currentFunction → s.isCanonical = true →
      other.isCanonical = true → s.nextId = other.nextId → s.numLocals = other.numLocals →
      s.locals = other.locals → s.borrowGraph.refs.keys = other.borrowGraph.refs.keys →
      s.borrowGraph.checkInvariant = true → other.borrowGraph.checkInvariant = true →
      ∃ r, s.join other = some r ∧
        (r.1 = .Unchanged ↔ ∀ x ∈ other.borrowGraph.edges, ∃ y ∈ s.borrowGraph.edges, y ≤ x)) := by
  refine ⟨fun a ha => leq_refl_of_wellFormed (checkInvariant_iff.1 ha), fun a b c hab hbc hb hc h h' => ?_,
    fun a b hab ha hb => ?_, fun s other hfun hs ho hnext hnum hloc hkeys hinv hinv' => ?_⟩
  · exact leq_trans_of_wellFormed (sameIds_of_keys_eq hab) (sameIds_of_keys_eq hbc) (checkInvariant_iff.1 hb)
      (checkInvariant_iff.1 hc) h h'
  · obtain ⟨j, hj, -, hwf, hja, hjb, hlub⟩ :=
      join_isLub (sameIds_of_keys_eq hab) (checkInvariant_iff.1 ha) (checkInvariant_iff.1 hb)
    exact ⟨j, hj, checkInvariant_iff.2 hwf, hja, hjb, fun c hca => hlub c (sameIds_of_keys_eq hca)⟩
  · have hpre : (s.currentFunction == other.currentFunction && s.isCanonical && other.isCanonical &&
        s.nextId == other.nextId && s.numLocals == other.numLocals) = true := by
      simp [hfun, hs, ho, hnext, hnum]
    obtain ⟨r, hr, hiff⟩ := AbstractState.join_of_locals_eq hpre hloc (sameIds_of_keys_eq hkeys.symm)
      (checkInvariant_iff.1 hinv) (checkInvariant_iff.1 hinv')
    exact ⟨r, hr, hiff.trans Cover.covers_iff⟩

/-- Reference `0` borrowed by reference `1` weakly, at the empty path. -/
def weakBorrowGraph : BorrowGraph ℕ :=
  ⟨((∅ : OrdMap ℕ (Ref ℕ)).insert 0 ⟨(∅ : OrdMap ℕ _).insert 1 [⟨false, []⟩], ∅, true⟩).insert 1
    ⟨∅, (∅ : OrdMap ℕ Unit).insert 0 (), true⟩⟩

/-- Reference `0` borrowed by reference `1` strongly, at field `3`. -/
def strongBorrowGraph : BorrowGraph ℕ :=
  ⟨((∅ : OrdMap ℕ (Ref ℕ)).insert 0 ⟨(∅ : OrdMap ℕ _).insert 1 [⟨true, [3]⟩], ∅, true⟩).insert 1
    ⟨∅, (∅ : OrdMap ℕ Unit).insert 0 (), true⟩⟩

/-- The frame root `1` lending reference `0` by one edge. -/
def frameBorrowGraph (strong : Bool) (path : List Label) : BorrowGraph Label :=
  ⟨((∅ : OrdMap ℕ (Ref Label)).insert 0 ⟨∅, (∅ : OrdMap ℕ Unit).insert 1 (), true⟩).insert 1
    ⟨(∅ : OrdMap ℕ _).insert 0 [⟨strong, path⟩], ∅, true⟩⟩

/-- One local, holding reference `0`, over the borrow graph `g`. -/
def refLocalState (g : BorrowGraph Label) : AbstractState :=
  ⟨some 0, (∅ : OrdMap ℕ AbstractValue).insert 0 (.Reference 0), g, 1, 2⟩

/-- The weak and the strong borrow: the weak graph is its own lower bound, the
two join to a lower bound of both, and of two states that differ only in the
edge, the one with the weak edge reports `Unchanged` when joined with the other,
which reports `Changed` the other way round. -/
theorem borrowGraph_join_semilattice_weakStrong :
    weakBorrowGraph.leq weakBorrowGraph = some true ∧
    (∃ j, weakBorrowGraph.join strongBorrowGraph = some j ∧ j.checkInvariant = true ∧
      j.leq weakBorrowGraph = some true ∧ j.leq strongBorrowGraph = some true) ∧
    (∃ r, (refLocalState (frameBorrowGraph false [])).join (refLocalState (frameBorrowGraph true [.Field 3])) =
        some r ∧ r.1 = .Unchanged ∧
      ∀ x ∈ (frameBorrowGraph true [.Field 3]).edges, ∃ y ∈ (frameBorrowGraph false []).edges, y ≤ x) ∧
    (∃ r, (refLocalState (frameBorrowGraph true [.Field 3])).join (refLocalState (frameBorrowGraph false [])) =
        some r ∧ r.1 = .Changed ∧
      ¬ ∀ x ∈ (frameBorrowGraph false []).edges, ∃ y ∈ (frameBorrowGraph true [.Field 3]).edges, y ≤ x) := by
  obtain ⟨hrefl, -, hlub, hstates⟩ := @borrowGraph_join_semilattice ℕ _
  obtain ⟨j, hj, hinv, hja, hjb, -⟩ := hlub weakBorrowGraph strongBorrowGraph (by decide) (by decide) (by decide)
  obtain ⟨r, hr, hiff⟩ := hstates (refLocalState (frameBorrowGraph false [])) (refLocalState (frameBorrowGraph true [.Field 3]))
    rfl (by decide) (by decide) rfl rfl rfl (by decide) (by decide) (by decide)
  obtain ⟨r', hr', hiff'⟩ := hstates (refLocalState (frameBorrowGraph true [.Field 3])) (refLocalState (frameBorrowGraph false []))
    rfl (by decide) (by decide) rfl rfl rfl (by decide) (by decide) (by decide)
  have hunchanged : ((refLocalState (frameBorrowGraph false [])).join
      (refLocalState (frameBorrowGraph true [.Field 3]))).map Prod.fst = some .Unchanged := by decide
  have hchanged : ((refLocalState (frameBorrowGraph true [.Field 3])).join
      (refLocalState (frameBorrowGraph false []))).map Prod.fst = some .Changed := by decide
  rw [hr, Option.map_some, Option.some.injEq] at hunchanged
  rw [hr', Option.map_some, Option.some.injEq] at hchanged
  refine ⟨hrefl _ (by decide), ⟨j, hj, hinv, hja, hjb⟩, ⟨r, hr, hunchanged, hiff.1 hunchanged⟩,
    ⟨r', hr', hchanged, fun hcover => ?_⟩⟩
  rw [hiff'.2 hcover] at hchanged
  cases hchanged

end Diem.Move
