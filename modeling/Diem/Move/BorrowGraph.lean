import Diem.Theory.OrdMap

/-!
# The borrow graph

`language/borrow-graph`: the graph of references that reference safety keeps. A
node is a reference, with the edges to the references borrowing from it
(`borrowed_by`), the back edges (`borrows_from`) and its mutability. An edge
carries a path of labels and is strong (the child borrows exactly that path) or
weak (the child borrows somewhere under it).

Reference ids are numbers, and maps and sets are `OrdMap`s, iterated in key
order as the Rust iterates them. A set of edges is a list without repeats whose
order is never observed: every loop over it either adds edges, whose union does
not depend on the order, or calls something that may panic on a condition the
loop does not change. The `loc` of an edge is left out, as the verifier
instantiates `Loc` with `()`, and a function that unwraps or asserts returns an
`Option`, `none` for the panic.

On a graph whose edges name only its own ids, `remap_refs` is the simultaneous
renaming of every id when the renaming is injective, moves no id up and sends
no id onto a taken one (**`remapRefs_eq_rename`**). The swap of two ids breaks
this: `remap_refs` renames one pair at a time, and the first move overwrites the
reference the second one moves (`OrdMap.find?_renameSeq_swap`).
-/

namespace Diem.Move

variable {Lbl : Type} [LinearOrder Lbl]

/-- `paths::leq`: `lhs` is a prefix of `rhs`. -/
def Paths.leq (lhs rhs : List Lbl) : Bool :=
  decide (lhs.length ≤ rhs.length) && (lhs.zip rhs).all fun p => p.1 == p.2

/-- `paths::factor`: `rhs` cut after the length of `lhs`. Its one caller has
checked `leq lhs rhs`, which the `assert!` repeats. -/
def Paths.factor (lhs rhs : List Lbl) : List Lbl × List Lbl := (rhs.take lhs.length, rhs.drop lhs.length)

/-- `BorrowEdge` without its `loc`. -/
structure BorrowEdge (Lbl : Type) where
  /-- An exact borrow of `path`, or a borrow of something under it. -/
  strong : Bool
  /-- The labels from the parent to what is borrowed. -/
  path : List Lbl
  deriving DecidableEq, Repr

/-- `BorrowEdge::leq`: `e` covers `e'` when it is the same edge, or weak on a
prefix of its path. -/
def BorrowEdge.leq (e e' : BorrowEdge Lbl) : Bool := e == e' || (!e.strong && Paths.leq e.path e'.path)

/-- `Ref`: one reference of the graph. -/
structure Ref (Lbl : Type) where
  /-- The references borrowing from this one, with the edges to each. -/
  borrowedBy : OrdMap ℕ (List (BorrowEdge Lbl))
  /-- The references this one borrows from. -/
  borrowsFrom : OrdMap ℕ Unit
  /-- Whether the reference is mutable. -/
  mutable : Bool

/-- `Ref::new`. -/
def Ref.new (mutable : Bool) : Ref Lbl := ⟨∅, ∅, mutable⟩

/-- `entry(child).or_insert_with(BTreeSet::new).insert(edge)` on a map of edge
sets. -/
def insertEdge (edges : OrdMap ℕ (List (BorrowEdge Lbl))) (childId : ℕ) (edge : BorrowEdge Lbl) :
    OrdMap ℕ (List (BorrowEdge Lbl)) :=
  edges.insert childId (((edges.find? childId).getD []).insert edge)

/-- `BorrowEdges::remap_refs`. -/
def BorrowEdges.remapRefs (edges : OrdMap ℕ (List (BorrowEdge Lbl))) (idMap : OrdMap ℕ ℕ) :
    OrdMap ℕ (List (BorrowEdge Lbl)) :=
  edges.renameSeq idMap.entries

/-- `remap_set`. -/
def remapSet (set : OrdMap ℕ Unit) (idMap : OrdMap ℕ ℕ) : OrdMap ℕ Unit := set.renameSeq idMap.entries

/-- `Ref::remap_refs`. -/
def Ref.remapRefs (r : Ref Lbl) (idMap : OrdMap ℕ ℕ) : Ref Lbl :=
  { r with borrowedBy := BorrowEdges.remapRefs r.borrowedBy idMap, borrowsFrom := remapSet r.borrowsFrom idMap }

/-- The ids of a reference's edges renamed by `σ` at once. -/
def Ref.rename (r : Ref Lbl) (σ : ℕ → ℕ) : Ref Lbl :=
  { r with borrowedBy := r.borrowedBy.rename σ, borrowsFrom := r.borrowsFrom.rename σ }

/-- `BorrowGraph`: the references by id. -/
structure BorrowGraph (Lbl : Type) where
  /-- The references. -/
  refs : OrdMap ℕ (Ref Lbl)

namespace BorrowGraph

/-- `new`: the empty graph. -/
def new : BorrowGraph Lbl := ⟨∅⟩

/-- `is_mutable`. -/
def isMutable (g : BorrowGraph Lbl) (id : ℕ) : Option Bool := (g.refs.find? id).map Ref.mutable

/-- `contains_id`. -/
def containsId (g : BorrowGraph Lbl) (id : ℕ) : Bool := (g.refs.find? id).isSome

/-- `new_ref`: a fresh reference, with no edges; the id must be unused. -/
def newRef (g : BorrowGraph Lbl) (id : ℕ) (mutable : Bool) : Option (BorrowGraph Lbl) :=
  match g.refs.find? id with
  | none => some ⟨g.refs.insert id (Ref.new mutable)⟩
  | some _ => none

/-- `get_mut(id).unwrap()` followed by an update of the reference. -/
def modifyRef (g : BorrowGraph Lbl) (id : ℕ) (f : Ref Lbl → Ref Lbl) : Option (BorrowGraph Lbl) := do
  let r ← g.refs.find? id
  pure ⟨g.refs.insert id (f r)⟩

/-- The loop of `borrowed_by` over one edge from `id` to `borrower`: an edge
with an empty path is a full borrow, any other a borrow of its first label. -/
def borrowedByEdge (acc : OrdMap ℕ Unit × OrdMap Lbl (OrdMap ℕ Unit)) (borrower : ℕ) (edge : BorrowEdge Lbl) :
    OrdMap ℕ Unit × OrdMap Lbl (OrdMap ℕ Unit) :=
  match edge.path.head? with
  | none => (acc.1.insert borrower (), acc.2)
  | some f => (acc.1, acc.2.insert f (((acc.2.find? f).getD ∅).insert borrower ()))

/-- `borrowed_by`: the references with a full borrow of `id`, and those
borrowing a field of it, by the field's label. -/
def borrowedBy (g : BorrowGraph Lbl) (id : ℕ) : Option (OrdMap ℕ Unit × OrdMap Lbl (OrdMap ℕ Unit)) := do
  let r ← g.refs.find? id
  pure (r.borrowedBy.entries.foldl (fun acc entry => entry.2.foldl (borrowedByEdge · entry.1) acc) (∅, ∅))

/-- `add_edge`: the parent is borrowed by the child along `edge`. -/
def addEdge (g : BorrowGraph Lbl) (parentId : ℕ) (edge : BorrowEdge Lbl) (childId : ℕ) :
    Option (BorrowGraph Lbl) :=
  if parentId = childId then none
  else do
    let g ← g.modifyRef parentId fun parent => { parent with borrowedBy := insertEdge parent.borrowedBy childId edge }
    g.modifyRef childId fun child => { child with borrowsFrom := child.borrowsFrom.insert parentId () }

/-- `add_path`. -/
def addPath (g : BorrowGraph Lbl) (parentId : ℕ) (strong : Bool) (path : List Lbl) (childId : ℕ) :
    Option (BorrowGraph Lbl) :=
  g.addEdge parentId ⟨strong, path⟩ childId

/-- The first loop of `factor`: the parent loses its edges whose path extends
`path`; a child left with none is dropped from the map and returned (the
`cleanup_ids`, in increasing order). The `assert!`s of the loop hold: each
edge removed was just found in the map. -/
def factorOut (path : List Lbl) (borrowedBy : OrdMap ℕ (List (BorrowEdge Lbl))) :
    OrdMap ℕ (List (BorrowEdge Lbl)) × List ℕ :=
  borrowedBy.entries.foldl (fun acc entry =>
    if entry.2.any (fun edge => Paths.leq path edge.path) then
      let rest := entry.2.filter fun edge => !Paths.leq path edge.path
      if rest.isEmpty then (acc.1.erase entry.1, acc.2 ++ [entry.1]) else (acc.1.insert entry.1 rest, acc.2)
    else acc) (borrowedBy, [])

/-- `factor`: `intermediateId` borrows `path` of the parent, and takes over the
parent's edges to children borrowing under `path`, with the rest of their
paths. -/
def factor (g : BorrowGraph Lbl) (parentId : ℕ) (path : List Lbl) (intermediateId : ℕ) :
    Option (BorrowGraph Lbl) := do
  let parent ← g.refs.find? parentId
  let needsFactored := parent.borrowedBy.entries.flatMap fun entry =>
    (entry.2.filter fun edge => Paths.leq path edge.path).map (entry.1, ·)
  let (borrowedBy, cleanupIds) := factorOut path parent.borrowedBy
  let g : BorrowGraph Lbl := ⟨g.refs.insert parentId { parent with borrowedBy }⟩
  let g ← cleanupIds.foldlM (fun g childId => do
    let child ← g.refs.find? childId
    match child.borrowsFrom.find? parentId with
    | some _ => pure ⟨g.refs.insert childId { child with borrowsFrom := child.borrowsFrom.erase parentId }⟩
    | none => none) g
  let g ← needsFactored.foldlM (fun g factored =>
    g.addPath intermediateId factored.2.strong (Paths.factor path factored.2.path).2 factored.1) g
  g.addPath parentId true path intermediateId

/-- `add_strong_borrow`. -/
def addStrongBorrow (g : BorrowGraph Lbl) (parentId childId : ℕ) : Option (BorrowGraph Lbl) :=
  g.factor parentId [] childId

/-- `add_strong_field_borrow`. -/
def addStrongFieldBorrow (g : BorrowGraph Lbl) (parentId : ℕ) (field : Lbl) (childId : ℕ) :
    Option (BorrowGraph Lbl) :=
  g.factor parentId [field] childId

/-- `add_weak_borrow`. -/
def addWeakBorrow (g : BorrowGraph Lbl) (parentId childId : ℕ) : Option (BorrowGraph Lbl) :=
  g.addPath parentId false [] childId

/-- `add_weak_field_borrow`. -/
def addWeakFieldBorrow (g : BorrowGraph Lbl) (parentId : ℕ) (field : Lbl) (childId : ℕ) :
    Option (BorrowGraph Lbl) :=
  g.addPath parentId false [field] childId

/-- `splice_out_intermediate`: the edge from the parent through a released
reference to the child, made one edge (none for a cycle back to the parent). -/
def spliceOutIntermediate (g : BorrowGraph Lbl) (parentId : ℕ) (parentToIntermediate : BorrowEdge Lbl)
    (childId : ℕ) (intermediateToChild : BorrowEdge Lbl) : Option (BorrowGraph Lbl) :=
  if parentId = childId then some g
  else
    let path := if parentToIntermediate.strong then parentToIntermediate.path ++ intermediateToChild.path
      else parentToIntermediate.path
    g.addEdge parentId ⟨parentToIntermediate.strong && intermediateToChild.strong, path⟩ childId

/-- `release`: remove a reference, joining each of its parents to each of its
children. -/
def release (g : BorrowGraph Lbl) (id : ℕ) : Option (BorrowGraph Lbl) := do
  let r ← g.refs.find? id
  let g : BorrowGraph Lbl := ⟨g.refs.erase id⟩
  let g ← r.borrowsFrom.keys.foldlM (fun g parentRefId => do
    let parent ← g.refs.find? parentRefId
    let parentEdges ← parent.borrowedBy.find? id
    let g : BorrowGraph Lbl := ⟨g.refs.insert parentRefId { parent with borrowedBy := parent.borrowedBy.erase id }⟩
    parentEdges.foldlM (fun g parentEdge =>
      r.borrowedBy.entries.foldlM (fun g entry =>
        entry.2.foldlM (fun g childEdge => g.spliceOutIntermediate parentRefId parentEdge entry.1 childEdge) g) g) g) g
  r.borrowedBy.keys.foldlM (fun g childRefId =>
    g.modifyRef childRefId fun child => { child with borrowsFrom := child.borrowsFrom.erase id }) g

/-- `unmatched_edges`: the edges of `other` that no edge of `g` between the
same references covers. -/
def unmatchedEdges (g other : BorrowGraph Lbl) : Option (OrdMap ℕ (OrdMap ℕ (List (BorrowEdge Lbl)))) :=
  other.refs.entries.foldlM (fun unmatched entry => do
    let selfRef ← g.refs.find? entry.1
    entry.2.borrowedBy.entries.foldlM (fun unmatched childEntry =>
      childEntry.2.foldlM (fun unmatched otherEdge =>
        let foundMatch := ((selfRef.borrowedBy.find? childEntry.1).map fun edges =>
          edges.any (BorrowEdge.leq · otherEdge)).getD false
        if foundMatch then some unmatched
        else if entry.1 = childEntry.1 then none
        else some (unmatched.insert entry.1 (insertEdge ((unmatched.find? entry.1).getD ∅) childEntry.1 otherEdge)))
        unmatched) unmatched) ∅

/-- `leq`: `g` covers `other`. -/
def leq (g other : BorrowGraph Lbl) : Option Bool := (g.unmatchedEdges other).map fun m => m.entries.isEmpty

/-- `join`: `g` with the edges of `other` it does not cover. -/
def join (g other : BorrowGraph Lbl) : Option (BorrowGraph Lbl) := do
  let unmatched ← g.unmatchedEdges other
  unmatched.entries.foldlM (fun joined entry =>
    entry.2.entries.foldlM (fun joined childEntry =>
      childEntry.2.foldlM (fun joined edge => joined.addEdge entry.1 edge childEntry.1) joined) joined) g

/-- `remap_refs`: rename the ids of the edges of every reference, then the
references themselves, one pair of the map at a time in increasing order. -/
def remapRefs (g : BorrowGraph Lbl) (idMap : OrdMap ℕ ℕ) : BorrowGraph Lbl :=
  ⟨(g.refs.mapValues (Ref.remapRefs · idMap)).renameSeq idMap.entries⟩

/-- `id_consistency`: every id an edge names is a reference of the graph. -/
def idConsistency (g : BorrowGraph Lbl) : Bool :=
  g.refs.entries.all fun entry => entry.2.borrowedBy.keys.all g.containsId && entry.2.borrowsFrom.keys.all g.containsId

/-- `edge_consistency`: every edge has its back edge and every back edge its
edge. (`self.0[child]` cannot panic here: `check_invariant` runs it after
`id_consistency`.) -/
def edgeConsistency (g : BorrowGraph Lbl) : Bool :=
  g.refs.entries.all fun entry =>
    entry.2.borrowedBy.keys.all (fun c => (g.refs.find? c).any fun child => (child.borrowsFrom.find? entry.1).isSome) &&
      entry.2.borrowsFrom.keys.all (fun p => (g.refs.find? p).any fun parent => (parent.borrowedBy.find? entry.1).isSome)

/-- `no_self_loops`. -/
def noSelfLoops (g : BorrowGraph Lbl) : Bool :=
  g.refs.entries.all fun entry =>
    entry.2.borrowedBy.keys.all (· ≠ entry.1) && entry.2.borrowsFrom.keys.all (· ≠ entry.1)

/-- `check_invariant`. -/
def checkInvariant (g : BorrowGraph Lbl) : Bool := g.idConsistency && g.edgeConsistency && g.noSelfLoops

/-! ### Simultaneous renaming -/

/-- The graph with every id renamed by `σ` at once: references, edges and back
edges. -/
def rename (g : BorrowGraph Lbl) (σ : ℕ → ℕ) : BorrowGraph Lbl :=
  ⟨(g.refs.mapValues (Ref.rename · σ)).rename σ⟩

omit [LinearOrder Lbl] in
/-- `id_consistency` read per reference. -/
theorem idConsistency_iff {g : BorrowGraph Lbl} :
    g.idConsistency = true ↔ ∀ id r, g.refs.find? id = some r →
      (∀ c, (r.borrowedBy.find? c).isSome → (g.refs.find? c).isSome) ∧
        (∀ p, (r.borrowsFrom.find? p).isSome → (g.refs.find? p).isSome) := by
  simp only [idConsistency, List.all_eq_true, Bool.and_eq_true, containsId, OrdMap.mem_keys_iff,
    Prod.forall, ← OrdMap.find?_eq_some_iff]

omit [LinearOrder Lbl] in
/-- **`remap_refs` is the simultaneous renaming** of a graph whose edges name
only its own ids, by an injective renaming that moves no id up and whose
targets outside its domain are not ids of the graph. -/
theorem remapRefs_eq_rename {g : BorrowGraph Lbl} {idMap : OrdMap ℕ ℕ} (hcons : g.idConsistency = true)
    (hle : ∀ a b, idMap.find? a = some b → b ≤ a)
    (hinj : ∀ a a' b, idMap.find? a = some b → idMap.find? a' = some b → a = a')
    (hfresh : ∀ a b, idMap.find? a = some b → idMap.find? b = none → g.refs.find? b = none) :
    g.remapRefs idMap = g.rename (OrdMap.renameKey idMap) := by
  unfold remapRefs rename
  congr 1
  -- the edges of each reference name ids of the graph, so the same targets are free in them
  have hrefs : g.refs.mapValues (Ref.remapRefs · idMap) =
      g.refs.mapValues (Ref.rename · (OrdMap.renameKey idMap)) := by
    apply OrdMap.mapValues_congr
    intro id r hr
    obtain ⟨hby, hfrom⟩ := idConsistency_iff.1 hcons id r hr
    have hfree : ∀ {ν : Type} (m : OrdMap ℕ ν), (∀ c, (m.find? c).isSome → (g.refs.find? c).isSome) →
        ∀ a b, idMap.find? a = some b → idMap.find? b = none → m.find? b = none := by
      intro ν m hm a b hab hb
      have hgb := hfresh a b hab hb
      cases hmb : m.find? b with
      | none => rfl
      | some _ =>
        have := hm b (by simp [hmb])
        rw [hgb] at this
        cases this
    simp only [Ref.remapRefs, Ref.rename, BorrowEdges.remapRefs, remapSet,
      OrdMap.renameSeq_eq_rename hle hinj (hfree _ hby), OrdMap.renameSeq_eq_rename hle hinj (hfree _ hfrom)]
  rw [hrefs]
  apply OrdMap.renameSeq_eq_rename hle hinj
  intro a b hab hb
  simp [hfresh a b hab hb]

end BorrowGraph

end Diem.Move
