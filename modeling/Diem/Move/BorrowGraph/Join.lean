import Diem.Move.BorrowGraph
import Diem.Theory.Cover

/-!
# Covering and joining borrow graphs

`BorrowGraph::leq`, `unmatched_edges` and `join` in
`language/borrow-graph/src/graph.rs`: the order and the join of the
reference-safety domain.

An edge of a graph is an `Edge`: the parent, the child and the `BorrowEdge`
between them. Edges between the same two references are compared by
`BorrowEdge::leq`, which makes `Edge` a preorder, and a graph is read as its set
of edges. The loop bodies of the three functions are named here
(`unmatchedEdge`, `unmatchedRef`, `joinRef`), with equations saying that the
functions are the loops over them.

Over graphs without self loops whose ids are ids of `g`, `unmatched_edges` does
not panic and returns exactly the edges of `other` that no edge of `g` covers
(`unmatchedEdges_spec`). So `leq` is `Cover.Covers` on the edge sets, and `join`
adds those edges to `g` and keeps `check_invariant` (`join_spec`). With
`Theory.Cover`, `leq` is a preorder and `join` a least upper bound for it
(**`join_isLub`**).
-/

namespace Diem.Move

variable {Lbl : Type} [LinearOrder Lbl]

theorem Paths.leq_iff : ∀ {l r : List Lbl}, Paths.leq l r = true ↔ l <+: r
  | [], r => by simp [Paths.leq]
  | a :: l, [] => by simp [Paths.leq]
  | a :: l, b :: r => by
    have ih := @Paths.leq_iff l r
    simp only [Paths.leq, Bool.and_eq_true, decide_eq_true_eq] at ih
    simp only [Paths.leq, List.length_cons, Nat.add_le_add_iff_right, List.zip_cons_cons, List.all_cons,
      Bool.and_eq_true, decide_eq_true_eq, beq_iff_eq, List.cons_prefix_cons, ← ih]
    tauto

theorem BorrowEdge.leq_iff {e e' : BorrowEdge Lbl} :
    e.leq e' = true ↔ e = e' ∨ (e.strong = false ∧ e.path <+: e'.path) := by
  simp [BorrowEdge.leq, Paths.leq_iff]

theorem BorrowEdge.leq_refl (e : BorrowEdge Lbl) : e.leq e = true := leq_iff.2 (.inl rfl)

theorem BorrowEdge.leq_trans {e e' e'' : BorrowEdge Lbl} (h : e.leq e' = true) (h' : e'.leq e'' = true) :
    e.leq e'' = true := by
  rcases leq_iff.1 h with rfl | ⟨hweak, hpath⟩
  · exact h'
  rcases leq_iff.1 h' with rfl | ⟨-, hpath'⟩
  · exact h
  · exact leq_iff.2 (.inr ⟨hweak, hpath.trans hpath'⟩)

/-- An edge of a borrow graph: `parent` is borrowed by `child` along `edge`. -/
@[ext]
structure Edge (Lbl : Type) where
  /-- The reference borrowed from. -/
  parent : ℕ
  /-- The borrowing reference. -/
  child : ℕ
  /-- What is borrowed. -/
  edge : BorrowEdge Lbl

/-- Edges between the same references compare by `BorrowEdge::leq`. -/
instance : Preorder (Edge Lbl) where
  le x y := x.parent = y.parent ∧ x.child = y.child ∧ x.edge.leq y.edge = true
  le_refl x := ⟨rfl, rfl, BorrowEdge.leq_refl x.edge⟩
  le_trans _ _ _ h h' := ⟨h.1.trans h'.1, h.2.1.trans h'.2.1, BorrowEdge.leq_trans h.2.2 h'.2.2⟩

theorem Edge.le_iff {x y : Edge Lbl} :
    x ≤ y ↔ x.parent = y.parent ∧ x.child = y.child ∧ x.edge.leq y.edge = true := Iff.rfl

/-- The edges of a map from parents to the edges to each child, the shape of
`unmatched_edges`' result and of the graph itself. -/
def edgesOf (m : OrdMap ℕ (OrdMap ℕ (List (BorrowEdge Lbl)))) : Set (Edge Lbl) :=
  {x | ∃ inner, m.find? x.parent = some inner ∧ x.edge ∈ (inner.find? x.child).getD []}

omit [LinearOrder Lbl] in
theorem mem_edgesOf_iff_entries {m : OrdMap ℕ (OrdMap ℕ (List (BorrowEdge Lbl)))} {x : Edge Lbl} :
    x ∈ edgesOf m ↔ ∃ pi ∈ m.entries, ∃ ce ∈ pi.2.entries, pi.1 = x.parent ∧ ce.1 = x.child ∧ x.edge ∈ ce.2 := by
  simp only [edgesOf, Set.mem_ofPred_eq, OrdMap.find?_eq_some_iff]
  constructor
  · rintro ⟨inner, hinner, he⟩
    cases hes : inner.find? x.child with
    | none => simp [hes] at he
    | some es =>
      rw [hes, Option.getD_some] at he
      exact ⟨_, hinner, _, (OrdMap.find?_eq_some_iff _ _ _).1 hes, rfl, rfl, he⟩
  · rintro ⟨⟨p, inner⟩, hpi, ⟨c, es⟩, hce, rfl, rfl, he⟩
    exact ⟨inner, hpi, by rw [(OrdMap.find?_eq_some_iff _ _ _).2 hce, Option.getD_some]; exact he⟩

theorem mem_insertEdge {edges : OrdMap ℕ (List (BorrowEdge Lbl))} {childId k : ℕ} {edge e : BorrowEdge Lbl} :
    e ∈ ((insertEdge edges childId edge).find? k).getD [] ↔ e ∈ (edges.find? k).getD [] ∨ (k = childId ∧ e = edge) := by
  by_cases hk : k = childId
  · subst hk
    simp [insertEdge, List.mem_insert_iff, or_comm]
  · simp [insertEdge, hk]

theorem isSome_find?_insertEdge {edges : OrdMap ℕ (List (BorrowEdge Lbl))} {childId k : ℕ}
    {edge : BorrowEdge Lbl} :
    ((insertEdge edges childId edge).find? k).isSome ↔ (edges.find? k).isSome ∨ k = childId := by
  by_cases hk : k = childId <;> simp [insertEdge, hk]

/-- `unmatched` after recording the edge from `parentId` to `childId`. -/
theorem edgesOf_insert_insertEdge (m : OrdMap ℕ (OrdMap ℕ (List (BorrowEdge Lbl)))) (parentId childId : ℕ)
    (edge : BorrowEdge Lbl) :
    edgesOf (m.insert parentId (insertEdge ((m.find? parentId).getD ∅) childId edge)) =
      insert ⟨parentId, childId, edge⟩ (edgesOf m) := by
  ext x
  by_cases hp : x.parent = parentId
  · cases hm : m.find? parentId <;>
      simp [edgesOf, hp, hm, mem_insertEdge, Edge.ext_iff, or_comm, and_comm]
  · simp [edgesOf, hp, Edge.ext_iff]

omit [LinearOrder Lbl] in
@[simp] theorem edgesOf_empty : edgesOf (∅ : OrdMap ℕ (OrdMap ℕ (List (BorrowEdge Lbl)))) = ∅ := by
  ext x
  simp [edgesOf]

omit [LinearOrder Lbl] in
theorem edgesOf_eq_iUnion (m : OrdMap ℕ (OrdMap ℕ (List (BorrowEdge Lbl)))) :
    edgesOf m = ⋃ pi ∈ m.entries, ⋃ ce ∈ pi.2.entries, ⋃ e ∈ ce.2, {(⟨pi.1, ce.1, e⟩ : Edge Lbl)} := by
  ext x
  simp only [mem_edgesOf_iff_entries, Set.mem_iUnion, Set.mem_singleton_iff, exists_prop, Edge.ext_iff]
  constructor
  · rintro ⟨pi, hpi, ce, hce, hp, hc, he⟩
    exact ⟨pi, hpi, ce, hce, x.edge, he, hp.symm, hc.symm, rfl⟩
  · rintro ⟨pi, hpi, ce, hce, e, he, hp, hc, rfl⟩
    exact ⟨pi, hpi, ce, hce, hp.symm, hc.symm, he⟩

namespace BorrowGraph

/-- The edges of the graph. -/
def edges (g : BorrowGraph Lbl) : Set (Edge Lbl) := edgesOf (g.refs.mapValues Ref.borrowedBy)

omit [LinearOrder Lbl] in
theorem mem_edges {g : BorrowGraph Lbl} {x : Edge Lbl} :
    x ∈ g.edges ↔ ∃ r, g.refs.find? x.parent = some r ∧ x.edge ∈ (r.borrowedBy.find? x.child).getD [] := by
  simp [edges, edgesOf]

omit [LinearOrder Lbl] in
theorem edges_eq_iUnion (g : BorrowGraph Lbl) :
    g.edges = ⋃ pr ∈ g.refs.entries, ⋃ ce ∈ pr.2.borrowedBy.entries, ⋃ e ∈ ce.2,
      {(⟨pr.1, ce.1, e⟩ : Edge Lbl)} := by
  rw [edges, edgesOf_eq_iUnion]
  ext x
  simp [OrdMap.mapValues]

/-- The edges of `g` cover one from `parentId` exactly when an edge of the
reference of `g` there does. -/
theorem mem_upperClosure_edges {g : BorrowGraph Lbl} {parentId : ℕ} {selfRef : Ref Lbl}
    (hself : g.refs.find? parentId = some selfRef) (childId : ℕ) (e : BorrowEdge Lbl) :
    (⟨parentId, childId, e⟩ : Edge Lbl) ∈ upperClosure g.edges ↔
      ∃ e' ∈ (selfRef.borrowedBy.find? childId).getD [], e'.leq e = true := by
  simp only [mem_upperClosure, mem_edges, Edge.le_iff]
  constructor
  · rintro ⟨⟨p, c, e'⟩, ⟨r, hr, he'⟩, hp, hc, hle⟩
    simp only at hp hc hr he' hle
    subst hp hc
    rw [hself, Option.some.injEq] at hr
    subst hr
    exact ⟨e', he', hle⟩
  · rintro ⟨e', he', hle⟩
    exact ⟨⟨parentId, childId, e'⟩, ⟨selfRef, hself, he'⟩, rfl, rfl, hle⟩

/-! ### `unmatched_edges` -/

/-- `found_match` of `unmatched_edges`: an edge to the child covers `e`. -/
theorem foundMatch_iff (o : Option (List (BorrowEdge Lbl))) (e : BorrowEdge Lbl) :
    ((o.map fun edges => edges.any (BorrowEdge.leq · e)).getD false) = true ↔
      ∃ e' ∈ o.getD [], e'.leq e = true := by
  cases o <;> simp [List.any_eq_true]

/-- The loop body of `unmatched_edges` for one edge of `other` from
`parentId` to `childId`, `selfRef` being the reference of `g` at `parentId`. -/
def unmatchedEdge (selfRef : Ref Lbl) (parentId childId : ℕ)
    (unmatched : OrdMap ℕ (OrdMap ℕ (List (BorrowEdge Lbl)))) (otherEdge : BorrowEdge Lbl) :
    Option (OrdMap ℕ (OrdMap ℕ (List (BorrowEdge Lbl)))) :=
  let foundMatch := ((selfRef.borrowedBy.find? childId).map fun edges =>
    edges.any (BorrowEdge.leq · otherEdge)).getD false
  if foundMatch then some unmatched
  else if parentId = childId then none
  else some (unmatched.insert parentId (insertEdge ((unmatched.find? parentId).getD ∅) childId otherEdge))

/-- The loop body of `unmatched_edges` for one reference of `other`. -/
def unmatchedRef (g : BorrowGraph Lbl) (unmatched : OrdMap ℕ (OrdMap ℕ (List (BorrowEdge Lbl))))
    (entry : ℕ × Ref Lbl) : Option (OrdMap ℕ (OrdMap ℕ (List (BorrowEdge Lbl)))) := do
  let selfRef ← g.refs.find? entry.1
  entry.2.borrowedBy.entries.foldlM (fun unmatched childEntry =>
    childEntry.2.foldlM (unmatchedEdge selfRef entry.1 childEntry.1) unmatched) unmatched

theorem unmatchedEdges_eq (g other : BorrowGraph Lbl) :
    g.unmatchedEdges other = other.refs.entries.foldlM (unmatchedRef g) ∅ := rfl

/-- Every parent of the map has an edge: `unmatched_edges` inserts a parent
only with an edge. -/
def Tight (m : OrdMap ℕ (OrdMap ℕ (List (BorrowEdge Lbl)))) : Prop :=
  ∀ p, (m.find? p).isSome → ∃ x ∈ edgesOf m, x.parent = p

omit [LinearOrder Lbl] in
theorem tight_empty : Tight (∅ : OrdMap ℕ (OrdMap ℕ (List (BorrowEdge Lbl)))) := by
  intro p hp
  simp at hp

theorem Tight.insert_insertEdge {m : OrdMap ℕ (OrdMap ℕ (List (BorrowEdge Lbl)))} (h : Tight m)
    (parentId childId : ℕ) (edge : BorrowEdge Lbl) :
    Tight (m.insert parentId (insertEdge ((m.find? parentId).getD ∅) childId edge)) := by
  intro p hp
  rw [edgesOf_insert_insertEdge]
  by_cases hpp : p = parentId
  · exact ⟨_, Set.mem_insert _ _, hpp.symm⟩
  · rw [OrdMap.find?_insert, if_neg hpp] at hp
    obtain ⟨x, hx, rfl⟩ := h _ hp
    exact ⟨x, Set.mem_insert_of_mem _ hx, rfl⟩

omit [LinearOrder Lbl] in
/-- On a tight map, no entry means no edge. -/
theorem Tight.isEmpty_iff {m : OrdMap ℕ (OrdMap ℕ (List (BorrowEdge Lbl)))} (h : Tight m) :
    m.entries.isEmpty = true ↔ edgesOf m = ∅ := by
  rw [List.isEmpty_iff]
  constructor
  · intro hnil
    ext x
    simp [mem_edgesOf_iff_entries, hnil]
  · intro hnone
    cases hent : m.entries with
    | nil => rfl
    | cons pi rest =>
      have hfind : m.find? pi.1 = some pi.2 := (OrdMap.find?_eq_some_iff _ _ _).2 (by simp [hent])
      obtain ⟨x, hx, -⟩ := h pi.1 (by simp [hfind])
      rw [hnone] at hx
      exact absurd hx (Set.notMem_empty x)

section Unmatched

variable {g : BorrowGraph Lbl}

/-- One edge of `other`, unless `g` covers it. -/
theorem unmatchedEdge_spec {parentId childId : ℕ} {selfRef : Ref Lbl} (hself : g.refs.find? parentId = some selfRef)
    (hne : parentId ≠ childId) (m : OrdMap ℕ (OrdMap ℕ (List (BorrowEdge Lbl)))) (e : BorrowEdge Lbl)
    (hm : Tight m) :
    ∃ m', unmatchedEdge selfRef parentId childId m e = some m' ∧ Tight m' ∧
      edgesOf m' = edgesOf m ∪ ({⟨parentId, childId, e⟩} \ upperClosure g.edges) := by
  by_cases hfound : ∃ e' ∈ (selfRef.borrowedBy.find? childId).getD [], e'.leq e = true
  · -- covered: nothing is recorded
    have hcov := (mem_upperClosure_edges hself childId e).2 hfound
    refine ⟨m, by simp only [unmatchedEdge, (foundMatch_iff _ _).2 hfound, if_true], hm, ?_⟩
    rw [Set.sdiff_eq_empty.2 (Set.singleton_subset_iff.2 hcov), Set.union_empty]
  · have hnot := (mem_upperClosure_edges hself childId e).not.2 hfound
    have hmatch : ((selfRef.borrowedBy.find? childId).map fun edges =>
        edges.any (BorrowEdge.leq · e)).getD false = false := by
      simpa only [Bool.not_eq_true] using (foundMatch_iff _ _).not.2 hfound
    refine ⟨_, by simp only [unmatchedEdge, hmatch, hne, Bool.false_eq_true, if_false], hm.insert_insertEdge parentId childId e, ?_⟩
    rw [edgesOf_insert_insertEdge, Set.insert_eq, Set.union_comm]
    congr 1
    ext x
    simp only [Set.mem_singleton_iff, Set.mem_sdiff, SetLike.mem_coe]
    constructor
    · rintro rfl
      exact ⟨rfl, hnot⟩
    · exact And.left

/-- One reference of `other`, whose edges go to other references. -/
theorem unmatchedRef_spec {entry : ℕ × Ref Lbl} (hself : (g.refs.find? entry.1).isSome)
    (hloops : ∀ ce ∈ entry.2.borrowedBy.entries, ce.1 ≠ entry.1) (m : OrdMap ℕ (OrdMap ℕ (List (BorrowEdge Lbl))))
    (hm : Tight m) :
    ∃ m', g.unmatchedRef m entry = some m' ∧ Tight m' ∧
      edgesOf m' = edgesOf m ∪ ⋃ ce ∈ entry.2.borrowedBy.entries, ⋃ e ∈ ce.2,
        ({⟨entry.1, ce.1, e⟩} \ upperClosure g.edges) := by
  obtain ⟨selfRef, hsel⟩ := Option.isSome_iff_exists.1 hself
  rw [unmatchedRef, hsel, Option.bind_eq_bind, Option.bind_some]
  refine List.foldlM_some_collect Tight edgesOf _ _ m (fun b ce hce hb => ?_) hm
  exact List.foldlM_some_collect Tight edgesOf _ ce.2 b
    (fun b e _ hb => unmatchedEdge_spec hsel (hloops ce hce).symm b e hb) hb

/-- **`unmatched_edges`**, over a graph whose ids are ids of `g` and whose
edges are no self loops, does not panic and returns the edges of `other`
that `g` does not cover. -/
theorem unmatchedEdges_spec {other : BorrowGraph Lbl}
    (hids : ∀ p, (other.refs.find? p).isSome → (g.refs.find? p).isSome)
    (hloops : ∀ p r, other.refs.find? p = some r → ∀ c, (r.borrowedBy.find? c).isSome → c ≠ p) :
    ∃ m, g.unmatchedEdges other = some m ∧ Tight m ∧ edgesOf m = Cover.unmatched g.edges other.edges := by
  have hstep : ∀ b, ∀ entry ∈ other.refs.entries, Tight b → ∃ b', g.unmatchedRef b entry = some b' ∧
      Tight b' ∧ edgesOf b' = edgesOf b ∪ ⋃ ce ∈ entry.2.borrowedBy.entries, ⋃ e ∈ ce.2,
        ({⟨entry.1, ce.1, e⟩} \ upperClosure g.edges) := by
    intro b entry hentry hb
    have hfind : other.refs.find? entry.1 = some entry.2 := (OrdMap.find?_eq_some_iff _ _ _).2 hentry
    refine unmatchedRef_spec (hids _ (by simp [hfind])) (fun ce hce => ?_) b hb
    exact hloops _ _ hfind _ (by simp [(OrdMap.find?_eq_some_iff _ _ _).2 hce])
  obtain ⟨m, hm, htight, hedges⟩ := List.foldlM_some_collect Tight edgesOf _ _ ∅ hstep tight_empty
  refine ⟨m, by rw [unmatchedEdges_eq]; exact hm, htight, ?_⟩
  rw [hedges, edgesOf_empty, Set.empty_union, Cover.unmatched, edges_eq_iUnion other]
  simp only [Set.iUnion_sdiff]

end Unmatched

/-! ### `add_edge` and the graph's invariant -/

/-- The graph's invariant read per reference: an edge goes to another
reference of the graph, which has the back edge, and a back edge to another
reference, which has the edge. -/
structure WellFormed (g : BorrowGraph Lbl) : Prop where
  /-- Every edge has its back edge. -/
  borrowedBy : ∀ p r c, g.refs.find? p = some r → (r.borrowedBy.find? c).isSome →
    c ≠ p ∧ ∃ child, g.refs.find? c = some child ∧ (child.borrowsFrom.find? p).isSome
  /-- Every back edge has its edge. -/
  borrowsFrom : ∀ c r p, g.refs.find? c = some r → (r.borrowsFrom.find? p).isSome →
    p ≠ c ∧ ∃ parent, g.refs.find? p = some parent ∧ (parent.borrowedBy.find? c).isSome

omit [LinearOrder Lbl] in
theorem checkInvariant_iff {g : BorrowGraph Lbl} : g.checkInvariant = true ↔ WellFormed g := by
  simp only [checkInvariant, idConsistency, edgeConsistency, noSelfLoops, List.all_eq_true, Bool.and_eq_true,
    containsId, OrdMap.mem_keys_iff, Prod.forall, ← OrdMap.find?_eq_some_iff, Option.any_eq_true,
    decide_eq_true_eq]
  constructor
  · rintro ⟨⟨-, hedge⟩, hloop⟩
    exact ⟨fun p r c hr hc => ⟨(hloop p r hr).1 c hc, (hedge p r hr).1 c hc⟩,
      fun c r p hr hp => ⟨(hloop c r hr).2 p hp, (hedge c r hr).2 p hp⟩⟩
  · rintro ⟨hby, hfrom⟩
    refine ⟨⟨fun p r hr => ⟨fun c hc => ?_, fun q hq => ?_⟩, fun p r hr => ⟨fun c hc => ?_, fun q hq => ?_⟩⟩,
      fun p r hr => ⟨fun c hc => (hby p r c hr hc).1, fun q hq => (hfrom p r q hr hq).1⟩⟩
    · obtain ⟨-, child, hchild, -⟩ := hby p r c hr hc
      simp [hchild]
    · obtain ⟨-, parent, hparent, -⟩ := hfrom p r q hr hq
      simp [hparent]
    · exact (hby p r c hr hc).2
    · exact (hfrom p r q hr hq).2

/-- Two graphs have the same reference ids. -/
def SameIds (g h : BorrowGraph Lbl) : Prop := ∀ id, (g.refs.find? id).isSome ↔ (h.refs.find? id).isSome

omit [LinearOrder Lbl] in
theorem sameIds_of_keys_eq {g h : BorrowGraph Lbl} (hkeys : g.refs.keys = h.refs.keys) : SameIds g h := by
  intro id
  rw [← OrdMap.mem_keys_iff, ← OrdMap.mem_keys_iff, hkeys]

omit [LinearOrder Lbl] in
theorem WellFormed.edge_of_mem {g : BorrowGraph Lbl} (hwf : WellFormed g) {x : Edge Lbl} (hx : x ∈ g.edges) :
    x.child ≠ x.parent ∧ (g.refs.find? x.parent).isSome ∧ (g.refs.find? x.child).isSome := by
  obtain ⟨r, hr, he⟩ := BorrowGraph.mem_edges.1 hx
  have hc : (r.borrowedBy.find? x.child).isSome := by
    cases hes : r.borrowedBy.find? x.child with
    | none => simp [hes] at he
    | some _ => rfl
  obtain ⟨hne, child, hchild, -⟩ := hwf.borrowedBy _ _ _ hr hc
  exact ⟨hne, by simp [hr], by simp [hchild]⟩

omit [LinearOrder Lbl] in
theorem modifyRef_of_find? {g : BorrowGraph Lbl} {id : ℕ} {r : Ref Lbl} (h : g.refs.find? id = some r)
    (f : Ref Lbl → Ref Lbl) : g.modifyRef id f = some ⟨g.refs.insert id (f r)⟩ := by
  simp [modifyRef, h]

/-- What `add_edge` from `parentId` along `edge` to `childId` makes of the
reference `id`. -/
def addEdgeRef (parentId : ℕ) (edge : BorrowEdge Lbl) (childId id : ℕ) (r : Ref Lbl) : Ref Lbl :=
  { r with
    borrowedBy := if id = parentId then insertEdge r.borrowedBy childId edge else r.borrowedBy
    borrowsFrom := if id = childId then r.borrowsFrom.insert parentId () else r.borrowsFrom }

theorem addEdgeRef_of_ne {parentId childId id : ℕ} (hp : id ≠ parentId) (hc : id ≠ childId) (edge : BorrowEdge Lbl)
    (r : Ref Lbl) : addEdgeRef parentId edge childId id r = r := by
  simp [addEdgeRef, hp, hc]

/-- `add_edge` between two distinct references of the graph does not panic
and updates each reference by `addEdgeRef`. -/
theorem addEdge_eq_some {g : BorrowGraph Lbl} {parentId childId : ℕ} (hne : parentId ≠ childId)
    (hp : (g.refs.find? parentId).isSome) (hc : (g.refs.find? childId).isSome) (edge : BorrowEdge Lbl) :
    ∃ g', g.addEdge parentId edge childId = some g' ∧
      ∀ id, g'.refs.find? id = (g.refs.find? id).map (addEdgeRef parentId edge childId id) := by
  obtain ⟨rp, hrp⟩ := Option.isSome_iff_exists.1 hp
  obtain ⟨rc, hrc⟩ := Option.isSome_iff_exists.1 hc
  have hrc' : (g.refs.insert parentId { rp with borrowedBy := insertEdge rp.borrowedBy childId edge }).find? childId =
      some rc := by
    rw [OrdMap.find?_insert, if_neg (Ne.symm hne), hrc]
  refine ⟨⟨(g.refs.insert parentId { rp with borrowedBy := insertEdge rp.borrowedBy childId edge }).insert childId
    { rc with borrowsFrom := rc.borrowsFrom.insert parentId () }⟩, ?_, fun id => ?_⟩
  · rw [addEdge, if_neg hne, modifyRef_of_find? hrp]
    exact modifyRef_of_find? hrc' _
  by_cases hidc : id = childId
  · subst hidc
    simp [hrc, addEdgeRef, Ne.symm hne]
  · by_cases hidp : id = parentId
    · subst hidp
      simp [hrp, addEdgeRef, hne]
    · have hsame : addEdgeRef parentId edge childId id = fun r => r := funext fun r => addEdgeRef_of_ne hidp hidc edge r
      simp only [OrdMap.find?_insert, if_neg hidc, if_neg hidp, hsame, Option.map_id']

theorem isSome_borrowsFrom_addEdgeRef {parentId childId id k : ℕ} {edge : BorrowEdge Lbl} {r : Ref Lbl} :
    ((addEdgeRef parentId edge childId id r).borrowsFrom.find? k).isSome ↔
      (r.borrowsFrom.find? k).isSome ∨ (id = childId ∧ k = parentId) := by
  by_cases hid : id = childId
  · by_cases hk : k = parentId <;> simp [addEdgeRef, hid, hk]
  · simp [addEdgeRef, hid]

theorem isSome_borrowedBy_addEdgeRef {parentId childId id k : ℕ} {edge : BorrowEdge Lbl} {r : Ref Lbl} :
    ((addEdgeRef parentId edge childId id r).borrowedBy.find? k).isSome ↔
      (r.borrowedBy.find? k).isSome ∨ (id = parentId ∧ k = childId) := by
  by_cases hid : id = parentId
  · simp [addEdgeRef, hid, isSome_find?_insertEdge]
  · simp [addEdgeRef, hid]

theorem mem_borrowedBy_addEdgeRef {parentId childId id k : ℕ} {edge e : BorrowEdge Lbl} {r : Ref Lbl} :
    e ∈ ((addEdgeRef parentId edge childId id r).borrowedBy.find? k).getD [] ↔
      e ∈ (r.borrowedBy.find? k).getD [] ∨ (id = parentId ∧ k = childId ∧ e = edge) := by
  by_cases hid : id = parentId
  · simp [addEdgeRef, hid, mem_insertEdge]
  · simp [addEdgeRef, hid]

section AddEdge

variable {g g' : BorrowGraph Lbl} {parentId childId : ℕ} {edge : BorrowEdge Lbl}

theorem sameIds_addEdge (h : ∀ id, g'.refs.find? id = (g.refs.find? id).map (addEdgeRef parentId edge childId id)) :
    SameIds g' g := by
  intro id
  rw [h, Option.isSome_map]

theorem edges_addEdge (hp : (g.refs.find? parentId).isSome)
    (h : ∀ id, g'.refs.find? id = (g.refs.find? id).map (addEdgeRef parentId edge childId id)) :
    g'.edges = insert ⟨parentId, childId, edge⟩ g.edges := by
  ext x
  simp only [mem_edges, h, Option.map_eq_some_iff, Set.mem_insert_iff, Edge.ext_iff]
  constructor
  · rintro ⟨_, ⟨r, hr, rfl⟩, hx⟩
    rcases mem_borrowedBy_addEdgeRef.1 hx with hx | hx
    · exact .inr ⟨r, hr, hx⟩
    · exact .inl hx
  · rintro (⟨hxp, hxc, hxe⟩ | ⟨r, hr, hx⟩)
    · obtain ⟨rp, hrp⟩ := Option.isSome_iff_exists.1 hp
      exact ⟨_, ⟨rp, hxp ▸ hrp, rfl⟩, mem_borrowedBy_addEdgeRef.2 (.inr ⟨hxp, hxc, hxe⟩)⟩
    · exact ⟨_, ⟨r, hr, rfl⟩, mem_borrowedBy_addEdgeRef.2 (.inl hx)⟩

/-- `add_edge` between two distinct references keeps the invariant: the edge
and its back edge are added together. -/
theorem WellFormed.addEdge (hwf : WellFormed g) (hne : parentId ≠ childId) (hp : (g.refs.find? parentId).isSome)
    (hc : (g.refs.find? childId).isSome)
    (h : ∀ id, g'.refs.find? id = (g.refs.find? id).map (addEdgeRef parentId edge childId id)) :
    WellFormed g' := by
  -- a reference of `g'` is one of `g` updated, and a reference of `g` is kept updated in `g'`
  have hfind : ∀ {id r'}, g'.refs.find? id = some r' → ∃ r, g.refs.find? id = some r ∧
      r' = addEdgeRef parentId edge childId id r := by
    intro id r' hr'
    rw [h, Option.map_eq_some_iff] at hr'
    obtain ⟨r, hr, rfl⟩ := hr'
    exact ⟨r, hr, rfl⟩
  have hlift : ∀ {id r}, g.refs.find? id = some r →
      g'.refs.find? id = some (addEdgeRef parentId edge childId id r) := by
    intro id r hr
    rw [h, hr, Option.map_some]
  obtain ⟨rp, hrp⟩ := Option.isSome_iff_exists.1 hp
  obtain ⟨rc, hrc⟩ := Option.isSome_iff_exists.1 hc
  constructor
  · intro p r' c hr' hpc
    obtain ⟨r, hr, rfl⟩ := hfind hr'
    rcases isSome_borrowedBy_addEdgeRef.1 hpc with hpc | ⟨rfl, rfl⟩
    · obtain ⟨hcp, child, hchild, hback⟩ := hwf.borrowedBy p r c hr hpc
      exact ⟨hcp, _, hlift hchild, isSome_borrowsFrom_addEdgeRef.2 (.inl hback)⟩
    · -- the new edge, whose back edge the child gets
      exact ⟨hne.symm, _, hlift hrc, isSome_borrowsFrom_addEdgeRef.2 (.inr ⟨rfl, rfl⟩)⟩
  · intro c r' p hr' hcp
    obtain ⟨r, hr, rfl⟩ := hfind hr'
    rcases isSome_borrowsFrom_addEdgeRef.1 hcp with hcp | ⟨rfl, rfl⟩
    · obtain ⟨hpc, parent, hparent, hedge⟩ := hwf.borrowsFrom c r p hr hcp
      exact ⟨hpc, _, hlift hparent, isSome_borrowedBy_addEdgeRef.2 (.inl hedge)⟩
    · exact ⟨hne, _, hlift hrp, isSome_borrowedBy_addEdgeRef.2 (.inr ⟨rfl, rfl⟩)⟩

end AddEdge

/-! ### `leq` and `join` -/

/-- The loop body of `join` for the unmatched edges of one parent. -/
def joinRef (joined : BorrowGraph Lbl) (entry : ℕ × OrdMap ℕ (List (BorrowEdge Lbl))) : Option (BorrowGraph Lbl) :=
  entry.2.entries.foldlM (fun joined childEntry =>
    childEntry.2.foldlM (fun joined edge => joined.addEdge entry.1 edge childEntry.1) joined) joined

theorem join_eq (g other : BorrowGraph Lbl) :
    g.join other = (g.unmatchedEdges other).bind fun unmatched => unmatched.entries.foldlM joinRef g := rfl

/-- **`leq` is covering**: against a well-formed graph whose ids are ids of
`g`, `leq` does not panic and answers whether `g` covers it. -/
theorem leq_eq_some_iff {g other : BorrowGraph Lbl}
    (hids : ∀ p, (other.refs.find? p).isSome → (g.refs.find? p).isSome) (hwf : WellFormed other) (b : Bool) :
    g.leq other = some b ↔ (b = true ↔ Cover.Covers g.edges other.edges) := by
  obtain ⟨m, hm, htight, hedges⟩ :=
    unmatchedEdges_spec hids fun p r hr c hc => (hwf.borrowedBy p r c hr hc).1
  rw [leq, hm, Option.map_some, Option.some.injEq, Cover.covers_iff_unmatched_eq_empty, ← hedges,
    ← htight.isEmpty_iff]
  cases b <;> simp

theorem leq_isSome {g other : BorrowGraph Lbl}
    (hids : ∀ p, (other.refs.find? p).isSome → (g.refs.find? p).isSome) (hwf : WellFormed other) :
    (g.leq other).isSome := by
  obtain ⟨m, hm, -⟩ := unmatchedEdges_spec hids fun p r hr c hc => (hwf.borrowedBy p r c hr hc).1
  simp [leq, hm]

theorem leq_eq_some_true_iff {g other : BorrowGraph Lbl}
    (hids : ∀ p, (other.refs.find? p).isSome → (g.refs.find? p).isSome) (hwf : WellFormed other) :
    g.leq other = some true ↔ Cover.Covers g.edges other.edges := by
  rw [leq_eq_some_iff hids hwf]
  exact ⟨fun h => h.1 rfl, iff_of_true rfl⟩

section Join

variable {g : BorrowGraph Lbl}

/-- One edge between two distinct ids of `g` added to a well-formed graph
over the ids of `g`. -/
theorem addEdge_spec {b : BorrowGraph Lbl} (hb : SameIds b g ∧ WellFormed b) (x : Edge Lbl)
    (hne : x.child ≠ x.parent) (hp : (g.refs.find? x.parent).isSome) (hc : (g.refs.find? x.child).isSome) :
    ∃ b', b.addEdge x.parent x.edge x.child = some b' ∧ (SameIds b' g ∧ WellFormed b') ∧
      b'.edges = b.edges ∪ {x} := by
  have hp' := (hb.1 _).2 hp
  have hc' := (hb.1 _).2 hc
  obtain ⟨b', hb', hfind⟩ := addEdge_eq_some hne.symm hp' hc' x.edge
  refine ⟨b', hb', ⟨fun id => (sameIds_addEdge hfind id).trans (hb.1 id), hb.2.addEdge hne.symm hp' hc' hfind⟩, ?_⟩
  rw [edges_addEdge hp' hfind, Set.union_singleton]

/-- **`join`** of two well-formed graphs over the same ids does not panic, is
well formed over these ids, and has `Cover.join` for its edges: those of `g`
and the edges of `other` that `g` does not cover. -/
theorem join_spec {other : BorrowGraph Lbl} (hids : SameIds other g) (hwf : WellFormed g)
    (hwf' : WellFormed other) :
    ∃ j, g.join other = some j ∧ SameIds j g ∧ WellFormed j ∧ j.edges = Cover.join g.edges other.edges := by
  obtain ⟨m, hm, -, hedges⟩ :=
    unmatchedEdges_spec (fun p hp => (hids p).1 hp) fun p r hr c hc => (hwf'.borrowedBy p r c hr hc).1
  -- an unmatched edge is one of `other`, so between two distinct ids of `g`
  have hedge : ∀ x ∈ edgesOf m,
      x.child ≠ x.parent ∧ (g.refs.find? x.parent).isSome ∧ (g.refs.find? x.child).isSome := by
    intro x hx
    rw [hedges] at hx
    obtain ⟨hne, hp, hc⟩ := hwf'.edge_of_mem hx.1
    exact ⟨hne, (hids _).1 hp, (hids _).1 hc⟩
  have hstep : ∀ b, ∀ pi ∈ m.entries, (SameIds b g ∧ WellFormed b) →
      ∃ b', joinRef b pi = some b' ∧ (SameIds b' g ∧ WellFormed b') ∧
        b'.edges = b.edges ∪ ⋃ ce ∈ pi.2.entries, ⋃ e ∈ ce.2, {(⟨pi.1, ce.1, e⟩ : Edge Lbl)} := by
    intro b pi hpi hb
    refine List.foldlM_some_collect (fun b => SameIds b g ∧ WellFormed b) edges _ _ b (fun b ce hce hb => ?_) hb
    refine List.foldlM_some_collect (fun b => SameIds b g ∧ WellFormed b) edges _ _ b (fun b e he hb => ?_) hb
    obtain ⟨hne, hp, hc⟩ := hedge ⟨pi.1, ce.1, e⟩ (mem_edgesOf_iff_entries.2 ⟨pi, hpi, ce, hce, rfl, rfl, he⟩)
    exact addEdge_spec hb ⟨pi.1, ce.1, e⟩ hne hp hc
  obtain ⟨j, hj, hP, hjedges⟩ :=
    List.foldlM_some_collect (fun b => SameIds b g ∧ WellFormed b) edges _ _ g hstep ⟨fun _ => Iff.rfl, hwf⟩
  refine ⟨j, by rw [join_eq, hm, Option.bind_some]; exact hj, hP.1, hP.2, ?_⟩
  rw [hjedges, ← edgesOf_eq_iUnion, hedges, Cover.join]

end Join

/-! ### The semilattice -/

section Semilattice

variable {a b c : BorrowGraph Lbl}

omit [LinearOrder Lbl] in
theorem SameIds.symm (h : SameIds a b) : SameIds b a := fun id => (h id).symm

omit [LinearOrder Lbl] in
theorem SameIds.trans (h : SameIds a b) (h' : SameIds b c) : SameIds a c := fun id => (h id).trans (h' id)

theorem leq_refl_of_wellFormed (ha : WellFormed a) : a.leq a = some true :=
  (leq_eq_some_true_iff (fun _ h => h) ha).2 (Cover.covers_refl _)

theorem leq_trans_of_wellFormed (hab : SameIds a b) (hbc : SameIds b c) (hb : WellFormed b) (hc : WellFormed c)
    (h : a.leq b = some true) (h' : b.leq c = some true) : a.leq c = some true := by
  rw [leq_eq_some_true_iff (fun p hp => (hab p).2 hp) hb] at h
  rw [leq_eq_some_true_iff (fun p hp => (hbc p).2 hp) hc] at h'
  exact (leq_eq_some_true_iff (fun p hp => (hab p).2 ((hbc p).2 hp)) hc).2 (h.trans h')

/-- **`join` is a least upper bound for `leq`**: the join covers both graphs,
and a graph over the same ids covering both covers the join. -/
theorem join_isLub (hab : SameIds a b) (ha : WellFormed a) (hb : WellFormed b) :
    ∃ j, a.join b = some j ∧ SameIds j a ∧ WellFormed j ∧ j.leq a = some true ∧ j.leq b = some true ∧
      ∀ c : BorrowGraph Lbl, SameIds c a → c.leq a = some true → c.leq b = some true → c.leq j = some true := by
  obtain ⟨j, hj, hids, hwf, hedges⟩ := join_spec hab.symm ha hb
  refine ⟨j, hj, hids, hwf, ?_, ?_, fun c hca hc hc' => ?_⟩
  · rw [leq_eq_some_true_iff (fun p hp => (hids p).2 hp) ha, hedges]
    exact Cover.covers_join_left
  · rw [leq_eq_some_true_iff (fun p hp => (hids p).2 ((hab p).2 hp)) hb, hedges]
    exact Cover.covers_join_right
  · rw [leq_eq_some_true_iff (fun p hp => (hca p).2 hp) ha] at hc
    rw [leq_eq_some_true_iff (fun p hp => (hca p).2 ((hab p).2 hp)) hb] at hc'
    rw [leq_eq_some_true_iff (fun p hp => (hca p).2 ((hids p).1 hp)) hwf, hedges]
    exact hc.join_of hc'

end Semilattice

end BorrowGraph

end Diem.Move
