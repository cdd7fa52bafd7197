import Diem.Types.Accumulator
import Diem.Types.Position
import Diem.Theory.Runs

/-!
# The persistent Merkle accumulator

`MerkleAccumulator::append` of `storage/accumulator/src/lib.rs` adds leaves to
an accumulator whose frozen nodes are in a store. It returns the new root hash
and the nodes the new leaves freeze, which the caller writes to the store;
`get_root_hash` reads a root back through `get_hash`. The store is the
`MockHashStore` of `test_helpers.rs`, and a run is what its tests do: `append`,
then `put_many` of what it returned.

The hash of an internal node is a parameter `node`, `ACCUMULATOR_PLACEHOLDER_HASH`
is `placeholder`, and a `HashReader` is a function to `Except String`. A failed
`assert!`, `assert_eq!` or `expect` is `Failure.panic`. The `while` loop of
`append` is `climb`; its two `for` loops are `appendLeaves` and `rootWalk`.
Counts are exact: the `u64` arithmetic of `Position` agrees with them up to
`MAX_ACCUMULATOR_LEAVES` leaves, which the results assume.

A store is right (`StoreOk`) when it holds exactly the nodes whose leaves are
all there, under their subtree hashes. **`append_eq_ok`** says `append` over
such a store returns the root of all the leaves and the nodes `climbNodes`
each new leaf freezes, and **`append_run_correct`** follows every run of
appends from the empty store: each root returned is the Merkle root of the
leaves so far and what `get_root_hash` then reads, and the nodes written are
the newly frozen ones, in increasing post-order. `get_root_hash` of an empty
accumulator panics, where `append` of no leaves returns the placeholder
(`getRootHash_zero_panics`).
-/

namespace Diem

open InorderTree MerkleTree Position Nat

namespace MerkleAccumulator

/-- What stops a call: an `Err` passed on by `?`, or a panic. -/
inductive Failure where
  /-- An `anyhow` error, with its message. -/
  | error (message : String)
  /-- A failed `assert!`, `assert_eq!` or `expect`. -/
  | panic
  deriving DecidableEq, Repr

/-- `Option::expect`, and `assert!` on the condition of an `Option`. -/
def expect {α : Type} : Option α → Except Failure α
  | some a => .ok a
  | none => .error .panic

@[simp] theorem expect_some {α : Type} (a : α) : expect (some a) = .ok a := rfl

/-- A right child's index at its level halves at its parent. -/
theorem index_parent_lt {p : Position} (h : p.isRightChild = true) :
    p.parent.toInorderIndex >>> (p.parent.level + 1) < p.toInorderIndex >>> (p.level + 1) := by
  obtain ⟨l, j, rfl⟩ : ∃ l j, p = ofCoords l j := ⟨_, _, eq_ofCoords p⟩
  rw [isRightChild_ofCoords, decide_eq_true_eq] at h
  rw [parent_ofCoords, level_ofCoords, level_ofCoords]
  simp only [ofCoords, inorder_shiftRight]
  omega

/-- A node that is neither a placeholder nor frozen is not a leaf: its
children are a level lower. -/
theorem level_children_lt {p : Position} {i : ℕ} (hp : ¬ p.isPlaceholder i = true)
    (hf : ¬ p.isFreezable i = true) : p.leftChild.level < p.level ∧ p.rightChild.level < p.level := by
  obtain ⟨l, j, rfl⟩ : ∃ l j, p = ofCoords l j := ⟨_, _, eq_ofCoords p⟩
  rw [isPlaceholder_ofCoords, decide_eq_true_eq] at hp
  rw [isFreezable_ofCoords, decide_eq_true_eq] at hf
  rcases l with _ | k
  · simp only [Nat.pow_zero, Nat.mul_one] at hp hf
    omega
  · simp

section Algorithm

variable (node : HashValue → HashValue → HashValue) (placeholder : HashValue)
  (reader : Position → Except String HashValue)

/-- `self.reader.get(position)?`. -/
def read (position : Position) : Except Failure HashValue := (reader position).mapError .error

/-- The `match left_siblings.pop()` of both loops of `append`: the hash of the
parent of `hash` and of its left sibling, which is on top of the stack if this
call made it (`assert_eq!` checks it is `sibling`) and read otherwise. -/
def hashWithLeftSibling (sibling : Position) (hash : HashValue) :
    List (Position × HashValue) → Except Failure (HashValue × List (Position × HashValue))
  | (x, leftHash) :: leftSiblings =>
    if x = sibling then .ok (node leftHash hash, leftSiblings) else .error .panic
  | [] => do
    let leftHash ← read reader sibling
    pure (node leftHash hash, [])

/-- The `while pos.is_right_child()` loop of `append`: from a new node, while
it is a right child, hash it with its left sibling and freeze the parent. -/
def climb (pos : Position) (hash : HashValue) (leftSiblings toFreeze : List (Position × HashValue)) :
    Except Failure (Position × HashValue × List (Position × HashValue) × List (Position × HashValue)) :=
  if h : pos.isRightChild then do
    let (hash, leftSiblings) ← hashWithLeftSibling node reader pos.sibling hash leftSiblings
    climb pos.parent hash leftSiblings (toFreeze ++ [(pos.parent, hash)])
  else .ok (pos, hash, leftSiblings, toFreeze)
termination_by pos.toInorderIndex >>> (pos.level + 1)
decreasing_by exact index_parent_lt h

/-- The `for (leaf_offset, leaf)` loop of `append`, from the leaf of index
`leafIndex = num_leaves + leaf_offset`: freeze the leaf, climb, and push the
node the climb ends at. -/
def appendLeaves : ℕ → List HashValue → List (Position × HashValue) → List (Position × HashValue) →
    Except Failure (List (Position × HashValue) × List (Position × HashValue))
  | _, [], leftSiblings, toFreeze => .ok (leftSiblings, toFreeze)
  | leafIndex, leaf :: newLeaves, leftSiblings, toFreeze => do
    let leafPos := fromLeafIndex leafIndex
    let (pos, hash, leftSiblings, toFreeze) ←
      climb node reader leafPos leaf leftSiblings (toFreeze ++ [(leafPos, leaf)])
    appendLeaves (leafIndex + 1) newLeaves ((pos, hash) :: leftSiblings) toFreeze

/-- The `for _ in pos.level()..root_level` loop of `append`: up to the root,
with a placeholder on the right of a left child and the left sibling on the
left of a right child. -/
def rootWalk : ℕ → Position → HashValue → List (Position × HashValue) →
    Except Failure (HashValue × List (Position × HashValue))
  | 0, _, hash, leftSiblings => .ok (hash, leftSiblings)
  | k + 1, pos, hash, leftSiblings => do
    let (hash, leftSiblings) ←
      (if pos.isLeftChild then pure (node hash placeholder, leftSiblings)
        else hashWithLeftSibling node reader pos.sibling hash leftSiblings)
    rootWalk k pos.parent hash leftSiblings

/-- `get_hash`: the placeholder past the last leaf, the stored hash of a frozen
node, and otherwise the hash of its children's hashes. -/
def getHash (numLeaves : ℕ) (position : Position) : Except Failure HashValue :=
  let idx := numLeaves - 1
  if hp : position.isPlaceholder idx then .ok placeholder
  else if hf : position.isFreezable idx then read reader position
  else do
    let left ← getHash numLeaves position.leftChild
    let right ← getHash numLeaves position.rightChild
    pure (node left right)
termination_by position.level
decreasing_by
  · exact (level_children_lt hp hf).1
  · exact (level_children_lt hp hf).2

/-- `get_root_hash`. -/
def getRootHash (numLeaves : ℕ) : Except Failure HashValue := do
  let root ← expect (rootFromLeafCount numLeaves)
  getHash node placeholder reader numLeaves root

/-- `MerkleAccumulator::append`. -/
def append (numLeaves : ℕ) (newLeaves : List HashValue) :
    Except Failure (HashValue × List (Position × HashValue)) :=
  if newLeaves.isEmpty then
    if numLeaves = 0 then .ok (placeholder, [])
    else do
      let root ← expect (rootFromLeafCount numLeaves)
      let rootHash ← getHash node placeholder reader numLeaves root
      pure (rootHash, [])
  else do
    let lastNewLeafCount := numLeaves + newLeaves.length
    let rootLevel ← expect (rootLevelFromLeafCount lastNewLeafCount)
    let (leftSiblings, toFreeze) ← appendLeaves node reader numLeaves newLeaves [] []
    match leftSiblings with
    | [] => .error .panic
    | (pos, hash) :: leftSiblings => do
      let (hash, leftSiblings) ← rootWalk node placeholder reader (rootLevel - pos.level) pos hash leftSiblings
      if leftSiblings.isEmpty then pure (hash, toFreeze) else .error .panic

end Algorithm

/-- `MockHashStore`. -/
structure MockHashStore where
  /-- `store`. -/
  store : Position → Option HashValue

namespace MockHashStore

/-- `MockHashStore::new`. -/
def new : MockHashStore := ⟨fun _ => none⟩

/-- `HashReader::get`. -/
def get (s : MockHashStore) (position : Position) : Except String HashValue :=
  match s.store position with
  | some hash => .ok hash
  | none => .error ("Position Position(" ++ toString position.toInorderIndex ++ ") absent.")

/-- `put_many`: `HashMap::extend`, where a later write wins. -/
def putMany (s : MockHashStore) (writes : List (Position × HashValue)) : MockHashStore :=
  ⟨writes.foldl (fun store w => Function.update store w.1 (some w.2)) s.store⟩

end MockHashStore

/-- The state of a run of appends: the store, and the leaves so far. -/
structure Accumulated where
  /-- The store the frozen nodes are written to. -/
  store : MockHashStore
  /-- The leaves appended so far. -/
  leaves : List HashValue

/-- An empty store, and no leaves. -/
def Accumulated.empty : Accumulated := ⟨MockHashStore.new, []⟩

/-- One call of a run: `append` on the store and the number of leaves so far,
then `put_many` of the frozen nodes it returns. -/
def appendCall (node : HashValue → HashValue → HashValue) (placeholder : HashValue) (s : Accumulated)
    (newLeaves : List HashValue) : Except Failure HashValue × Accumulated :=
  match append node placeholder s.store.get s.leaves.length newLeaves with
  | .ok (rootHash, toFreeze) => (.ok rootHash, ⟨s.store.putMany toFreeze, s.leaves ++ newLeaves⟩)
  | .error e => (.error e, s)

/-! ### What the store and the stack hold -/

section Spec

variable (node : HashValue → HashValue → HashValue) (placeholder : HashValue)

/-- The node of level `p.1` and index `p.2` at it, with its hash over `leaves`. -/
def frozenNode (leaves : List HashValue) (p : ℕ × ℕ) : Position × HashValue :=
  (ofCoords p.1 p.2, subtreeHash node placeholder leaves p.1 p.2)

/-- The nodes leaf `m` freezes: itself, and its ancestors while they are right
children, one per trailing one of `m`. -/
def climbNodes (leaves : List HashValue) (m : ℕ) : List (Position × HashValue) :=
  (List.range' 0 (trailingOnes m + 1)).map fun l => frozenNode node placeholder leaves (l, m >>> l)

/-- The nodes the leaves `new` freeze when appended to `old`, leaf by leaf. -/
def appended (old new : List HashValue) : List (Position × HashValue) :=
  (List.range' old.length new.length).flatMap (climbNodes node placeholder (old ++ new))

/-- `p` is frozen by `n` leaves: all the leaves below it are among them. -/
def FrozenBy (n : ℕ) (p : Position) : Prop := ∃ l j, p = ofCoords l j ∧ (j + 1) * 2 ^ l ≤ n

/-- `reader` serves every node frozen by the first `n` of `leaves`, with its hash. -/
def ReadsFrozen (reader : Position → Except String HashValue) (leaves : List HashValue) (n : ℕ) : Prop :=
  ∀ l j, (j + 1) * 2 ^ l ≤ n → reader (ofCoords l j) = .ok (subtreeHash node placeholder leaves l j)

/-- The store holds exactly the frozen nodes of `leaves`, under their hashes. -/
def StoreOk (s : MockHashStore) (leaves : List HashValue) : Prop :=
  ∀ l j, s.store (ofCoords l j) =
    if (j + 1) * 2 ^ l ≤ leaves.length then some (subtreeHash node placeholder leaves l j) else none

/-- The stack `left_siblings` at the node of level `l` and index `j`: the
maximal frozen subtrees left of the node, those of its first `j * 2 ^ l`
leaves, are the nodes on the stack followed by nodes frozen by the `n` leaves
there were before the call. -/
def LeftPeaks (leaves : List HashValue) (n l j : ℕ) (stack : List (Position × HashValue)) : Prop :=
  ∃ onStack stored, (peaks j).map (raise l) = onStack ++ stored ∧
    (∀ p ∈ stored, (p.2 + 1) * 2 ^ p.1 ≤ n) ∧ stack = onStack.map (frozenNode node placeholder leaves)

/-- The maximal frozen subtrees of `m + 1` leaves: the one leaf `m` closes, at
its trailing ones, and those to its left. -/
theorem peaks_succ (m : ℕ) : peaks (m + 1) =
    (trailingOnes m, m >>> trailingOnes m) :: (peaks (m >>> trailingOnes m)).map (raise (trailingOnes m)) := by
  rw [← (shiftRight_succ_mul_two_pow (le_refl (trailingOnes m))).1, Nat.mul_comm, peaks_two_pow_mul,
    peaks_succ_of_even (shiftRight_trailingOnes_mod_two m), List.map_cons]
  simp [raise]

theorem sibling_ofCoords_odd (l k : ℕ) : (ofCoords l (2 * k + 1)).sibling = ofCoords l (2 * k) := by
  rw [sibling_ofCoords, Nat.xor_one_of_odd (odd_two_mul_add_one k), Nat.add_sub_cancel]

section Leaves

variable {node placeholder} {leaves : List HashValue} {n : ℕ}

theorem leftPeaks_start (n : ℕ) : LeftPeaks node placeholder leaves n 0 n [] :=
  ⟨[], peaks n, by simp, fun _ hp => full_of_mem_peaks hp, rfl⟩

/-- Pushing the node a climb from leaf `m` ends at. -/
theorem LeftPeaks.push {m : ℕ} {stack : List (Position × HashValue)}
    (h : LeftPeaks node placeholder leaves n (trailingOnes m) (m >>> trailingOnes m) stack) :
    LeftPeaks node placeholder leaves n 0 (m + 1) ((ofCoords (trailingOnes m) (m >>> trailingOnes m),
      subtreeHash node placeholder leaves (trailingOnes m) (m >>> trailingOnes m)) :: stack) := by
  obtain ⟨onStack, stored, hpeaks, hstored, rfl⟩ := h
  refine ⟨(trailingOnes m, m >>> trailingOnes m) :: onStack, stored, ?_, hstored, rfl⟩
  rw [raise_zero, List.map_id, peaks_succ, hpeaks, List.cons_append]

/-- After the last leaf, the top of the stack is the lowest maximal subtree,
which the call made. -/
theorem LeftPeaks.pop {m : ℕ} {stack : List (Position × HashValue)} (hn : n ≤ m)
    (h : LeftPeaks node placeholder leaves n 0 (m + 1) stack) :
    ∃ stack', stack = (ofCoords (trailingOnes m) (m >>> trailingOnes m),
        subtreeHash node placeholder leaves (trailingOnes m) (m >>> trailingOnes m)) :: stack' ∧
      LeftPeaks node placeholder leaves n (trailingOnes m) (m >>> trailingOnes m) stack' := by
  obtain ⟨onStack, stored, hpeaks, hstored, rfl⟩ := h
  rw [raise_zero, List.map_id, peaks_succ] at hpeaks
  cases onStack with
  | nil =>
    have hfull := hstored _ (by rw [List.nil_append] at hpeaks; rw [← hpeaks]; exact List.mem_cons_self)
    have := (shiftRight_succ_mul_two_pow (le_refl (trailingOnes m))).1
    simp only at hfull
    omega
  | cons p onStack =>
    rw [List.cons_append, List.cons.injEq] at hpeaks
    obtain ⟨rfl, hpeaks⟩ := hpeaks
    exact ⟨_, rfl, onStack, stored, hpeaks, hstored, rfl⟩

theorem LeftPeaks.of_two_mul {l k : ℕ} {stack : List (Position × HashValue)}
    (h : LeftPeaks node placeholder leaves n l (2 * k) stack) :
    LeftPeaks node placeholder leaves n (l + 1) k stack := by
  obtain ⟨onStack, stored, hpeaks, hstored, rfl⟩ := h
  refine ⟨onStack, stored, ?_, hstored, rfl⟩
  rw [← hpeaks, peaks_two_mul, List.map_map]
  congr 1
  funext p
  simp only [Function.comp, raise]
  congr 1
  omega

theorem LeftPeaks.eq_nil {l : ℕ} {stack : List (Position × HashValue)}
    (h : LeftPeaks node placeholder leaves n l 0 stack) : stack = [] := by
  obtain ⟨onStack, stored, hpeaks, -, rfl⟩ := h
  rw [peaks_zero, List.map_nil, eq_comm, List.append_eq_nil_iff] at hpeaks
  rw [hpeaks.1, List.map_nil]

end Leaves

end Spec

/-! ### The loops of `append` and `get_hash` -/

section Loops

variable {node : HashValue → HashValue → HashValue} {placeholder : HashValue}
  {reader : Position → Except String HashValue} {leaves : List HashValue} {n : ℕ}

/-- **One left sibling.** At the right child of index `2 * k + 1` the left
sibling is on top of the stack, or else, frozen before the call, read. -/
theorem hashWithLeftSibling_eq_ok (hread : ReadsFrozen node placeholder reader leaves n) {l k : ℕ}
    (hk : k * 2 ^ (l + 1) < leaves.length) {stack : List (Position × HashValue)}
    (hs : LeftPeaks node placeholder leaves n l (2 * k + 1) stack) :
    ∃ stack', LeftPeaks node placeholder leaves n (l + 1) k stack' ∧
      hashWithLeftSibling node reader (ofCoords l (2 * k)) (subtreeHash node placeholder leaves l (2 * k + 1))
        stack = .ok (subtreeHash node placeholder leaves (l + 1) k, stack') := by
  obtain ⟨onStack, stored, hpeaks, hstored, rfl⟩ := hs
  have hparent := (subtreeHash_succ_of_lt node placeholder hk).symm
  have hraise : raise l ∘ raise 1 = raise (l + 1) := by
    funext p
    simp only [Function.comp, raise]
    congr 1
    omega
  rw [peaks_two_mul_add_one, List.map_cons, List.map_map, hraise] at hpeaks
  cases onStack with
  | nil =>
    rw [List.nil_append] at hpeaks
    subst hpeaks
    have hfrozen : (2 * k + 1) * 2 ^ l ≤ n := by simpa [raise] using hstored _ List.mem_cons_self
    refine ⟨[], ⟨[], _, rfl, fun p hp => hstored p (List.mem_cons_of_mem _ hp), rfl⟩, ?_⟩
    simp [hashWithLeftSibling, read, hread l (2 * k) hfrozen, hparent]
  | cons p onStack =>
    rw [List.cons_append, List.cons.injEq] at hpeaks
    obtain ⟨rfl, hpeaks⟩ := hpeaks
    refine ⟨_, ⟨onStack, stored, hpeaks, hstored, rfl⟩, ?_⟩
    simp [hashWithLeftSibling, frozenNode, raise, hparent]

/-- **The climb from leaf `m`**, from its ancestor at level `l`, `d` levels
below the trailing ones of `m`: it freezes each ancestor above, and stops at
the one of level `trailingOnes m`, a left child. -/
theorem climb_eq_ok (hread : ReadsFrozen node placeholder reader leaves n) {m : ℕ} (hm : m < leaves.length) :
    ∀ d l, l + d = trailingOnes m → ∀ stack toFreeze, LeftPeaks node placeholder leaves n l (m >>> l) stack →
      ∃ stack', LeftPeaks node placeholder leaves n (trailingOnes m) (m >>> trailingOnes m) stack' ∧
        climb node reader (ofCoords l (m >>> l)) (subtreeHash node placeholder leaves l (m >>> l)) stack toFreeze =
          .ok (ofCoords (trailingOnes m) (m >>> trailingOnes m),
            subtreeHash node placeholder leaves (trailingOnes m) (m >>> trailingOnes m), stack',
            toFreeze ++ (List.range' (l + 1) d).map fun k => frozenNode node placeholder leaves (k, m >>> k)) := by
  intro d
  induction d with
  | zero =>
    intro l hl stack toFreeze hs
    obtain rfl : l = trailingOnes m := by omega
    refine ⟨stack, hs, ?_⟩
    rw [climb, dif_neg (by simp [shiftRight_trailingOnes_mod_two])]
    simp
  | succ d ih =>
    intro l hl stack toFreeze hs
    have hodd := shiftRight_of_lt_trailingOnes (show l < trailingOnes m by omega)
    have hk : m >>> (l + 1) * 2 ^ (l + 1) < leaves.length :=
      lt_of_le_of_lt (shiftRight_mul_two_pow_le m (l + 1)) hm
    rw [hodd] at hs ⊢
    obtain ⟨stack', hs', hsib⟩ := hashWithLeftSibling_eq_ok hread hk hs
    obtain ⟨stack'', hs'', hclimb⟩ := ih (l + 1) (by omega) stack'
      (toFreeze ++ [(ofCoords (l + 1) (m >>> (l + 1)), subtreeHash node placeholder leaves (l + 1) (m >>> (l + 1)))]) hs'
    refine ⟨stack'', hs'', ?_⟩
    have hhalf : (2 * (m >>> (l + 1)) + 1) / 2 = m >>> (l + 1) := by omega
    rw [climb, dif_pos (by simp), sibling_ofCoords_odd, hsib]
    simp only [Except.ok_bind, parent_ofCoords, hhalf]
    rw [hclimb, List.range'_succ, List.map_cons, List.append_assoc, List.singleton_append]
    rfl

/-- **One level of the walk to the root**, at the ancestor of the last leaf
`m` at level `l`: a left child's right sibling covers no leaf, and a right
child's left sibling is popped or read. -/
theorem walkStep_eq_ok (hread : ReadsFrozen node placeholder reader leaves n) {m : ℕ}
    (hm : leaves.length = m + 1) {l : ℕ} {stack : List (Position × HashValue)}
    (hs : LeftPeaks node placeholder leaves n l (m >>> l) stack) :
    ∃ stack', LeftPeaks node placeholder leaves n (l + 1) (m >>> (l + 1)) stack' ∧
      (if (ofCoords l (m >>> l)).isLeftChild then
          pure (node (subtreeHash node placeholder leaves l (m >>> l)) placeholder, stack)
        else hashWithLeftSibling node reader (ofCoords l (m >>> l)).sibling
          (subtreeHash node placeholder leaves l (m >>> l)) stack) =
        .ok (subtreeHash node placeholder leaves (l + 1) (m >>> (l + 1)), stack') := by
  have hcover := shiftRight_mul_two_pow_le m l
  have hnext := lt_shiftRight_add_one_mul m l
  have hhalf : m >>> (l + 1) = m >>> l / 2 := Nat.shiftRight_succ m l
  obtain ⟨k, hk | hk⟩ := Nat.even_or_odd' (m >>> l)
  all_goals
    have hpow : k * 2 ^ (l + 1) = 2 * k * 2 ^ l := by rw [Nat.pow_succ]; ring
    rw [hk] at hs hcover hnext ⊢
    rw [show m >>> (l + 1) = k by omega]
  · -- a left child: its right sibling is past the last leaf
    refine ⟨stack, hs.of_two_mul, ?_⟩
    rw [if_pos (by simp), subtreeHash_succ_of_lt node placeholder (by omega),
      subtreeHash_of_le node placeholder (show leaves.length ≤ (2 * k + 1) * 2 ^ l by omega)]
    rfl
  · -- a right child
    have : 2 * k * 2 ^ l ≤ (2 * k + 1) * 2 ^ l := Nat.mul_le_mul_right _ (by omega)
    rw [if_neg (by simp), sibling_ofCoords_odd]
    exact hashWithLeftSibling_eq_ok hread (by omega) hs

/-- **The walk to the root** from the ancestor of the last leaf `m` at level
`l`, `d` levels below the root: it ends at the root with an empty stack. -/
theorem rootWalk_eq_ok (hread : ReadsFrozen node placeholder reader leaves n) {m : ℕ}
    (hm : leaves.length = m + 1) :
    ∀ d l, l + d = Nat.clog 2 leaves.length → ∀ stack, LeftPeaks node placeholder leaves n l (m >>> l) stack →
      rootWalk node placeholder reader d (ofCoords l (m >>> l)) (subtreeHash node placeholder leaves l (m >>> l))
        stack = .ok (rootHash node placeholder leaves, []) := by
  intro d
  induction d with
  | zero =>
    intro l hl stack hs
    obtain rfl : l = Nat.clog 2 leaves.length := by omega
    have h0 := shiftRight_clog_eq_zero (show 0 < m + 1 by omega)
    rw [Nat.add_sub_cancel, ← hm] at h0
    rw [h0] at hs ⊢
    rw [rootWalk, hs.eq_nil]
    rfl
  | succ d ih =>
    intro l hl stack hs
    obtain ⟨stack', hs', hstep⟩ := walkStep_eq_ok hread hm hs
    rw [rootWalk, hstep]
    simp only [Except.ok_bind, parent_ofCoords, ← Nat.shiftRight_succ]
    exact ih (l + 1) (by omega) stack' hs'

/-- **The loop over the new leaves**, from leaf `m` on: each leaf freezes its
`climbNodes`, and the stack ends with the maximal subtrees the call made. -/
theorem appendLeaves_eq_ok (hread : ReadsFrozen node placeholder reader leaves n) :
    ∀ (rest : List HashValue) (m : ℕ) (stack toFreeze : List (Position × HashValue)),
      leaves.drop m = rest → m ≤ leaves.length → n ≤ m → LeftPeaks node placeholder leaves n 0 m stack →
      ∃ stack', LeftPeaks node placeholder leaves n 0 leaves.length stack' ∧
        appendLeaves node reader m rest stack toFreeze =
          .ok (stack', toFreeze ++ (List.range' m rest.length).flatMap (climbNodes node placeholder leaves)) := by
  intro rest
  induction rest with
  | nil =>
    intro m stack toFreeze hdrop hm _ hs
    obtain rfl : m = leaves.length := by
      have := List.drop_eq_nil_iff.1 hdrop
      omega
    exact ⟨stack, hs, by simp [appendLeaves]⟩
  | cons leaf rest ih =>
    intro m stack toFreeze hdrop hm hn hs
    have hlt : m < leaves.length := by
      by_contra h
      rw [List.drop_eq_nil_of_le (by omega)] at hdrop
      exact List.cons_ne_nil _ _ hdrop.symm
    rw [List.drop_eq_getElem_cons hlt, List.cons.injEq] at hdrop
    obtain ⟨rfl, hdrop⟩ := hdrop
    have hleaf := subtreeHash_zero_of_lt node placeholder hlt
    obtain ⟨stack', hs', hclimb⟩ := climb_eq_ok hread hlt (trailingOnes m) 0 (by omega) stack
      (toFreeze ++ [(ofCoords 0 m, leaves[m])]) (by rwa [Nat.shiftRight_zero])
    obtain ⟨stack'', hs'', hrest⟩ := ih (m + 1) _ (toFreeze ++ [(ofCoords 0 m, leaves[m])] ++
      (List.range' (0 + 1) (trailingOnes m)).map fun k => frozenNode node placeholder leaves (k, m >>> k))
      hdrop hlt (by omega) hs'.push
    refine ⟨stack'', hs'', ?_⟩
    rw [Nat.shiftRight_zero, hleaf] at hclimb
    simp only [appendLeaves, fromLeafIndex_eq, hclimb, Except.ok_bind, hrest]
    simp only [List.length_cons, List.range'_succ, List.flatMap_cons, climbNodes, List.map_cons,
      List.append_assoc, List.singleton_append, frozenNode, Nat.shiftRight_zero, hleaf]

/-- **`get_hash` reads the tree**: a node past the last leaf is a placeholder,
a frozen one is read, and any other is hashed from its children. -/
theorem getHash_eq_ok (hread : ReadsFrozen node placeholder reader leaves leaves.length)
    (hN : 0 < leaves.length) (l j : ℕ) :
    getHash node placeholder reader leaves.length (ofCoords l j) = .ok (subtreeHash node placeholder leaves l j) := by
  induction l generalizing j with
  | zero =>
    rw [getHash]
    simp only [isPlaceholder_ofCoords, isFreezable_ofCoords, decide_eq_true_eq, Nat.pow_zero, Nat.mul_one]
    split_ifs with hp hf
    · rw [subtreeHash_of_le node placeholder (by simp; omega)]
    · simp [read, hread 0 j (by simpa using (show j + 1 ≤ leaves.length by omega))]
    · omega
  | succ k ih =>
    rw [getHash]
    simp only [isPlaceholder_ofCoords, isFreezable_ofCoords, decide_eq_true_eq]
    split_ifs with hp hf
    · rw [subtreeHash_of_le node placeholder (by omega)]
    · simp [read, hread (k + 1) j (by omega)]
    · rw [leftChild_ofCoords, rightChild_ofCoords, ih, ih,
        subtreeHash_succ_of_lt node placeholder (by omega)]
      rfl

end Loops

/-! ### `append` -/

section Append

variable {node : HashValue → HashValue → HashValue} {placeholder : HashValue}
  {reader : Position → Except String HashValue}

theorem getRootHash_eq_ok {leaves : List HashValue}
    (hread : ReadsFrozen node placeholder reader leaves leaves.length) (hN : 0 < leaves.length)
    (hmax : leaves.length ≤ MAX_ACCUMULATOR_LEAVES) :
    getRootHash node placeholder reader leaves.length = .ok (rootHash node placeholder leaves) := by
  rw [getRootHash, rootFromLeafCount_eq hN hmax, expect_some, Except.ok_bind, getHash_eq_ok hread hN]
  rfl

/-- **`append` is correct**: from a reader that serves the nodes the old leaves
froze, it returns the root of all the leaves and the nodes each new leaf
freezes. -/
theorem append_eq_ok {old new : List HashValue} (hread : ReadsFrozen node placeholder reader (old ++ new) old.length)
    (hmax : old.length + new.length ≤ MAX_ACCUMULATOR_LEAVES) :
    append node placeholder reader old.length new =
      .ok (rootHash node placeholder (old ++ new), appended node placeholder old new) := by
  cases new with
  | nil =>
    simp only [List.append_nil] at hread ⊢
    rcases Nat.eq_zero_or_pos old.length with h0 | hpos
    · rw [List.length_eq_zero_iff.1 h0]
      simp [append, appended, rootHash, subtreeHash]
    · rw [append, if_pos List.isEmpty_nil, if_neg hpos.ne', rootFromLeafCount_eq hpos (by simpa [MAX_ACCUMULATOR_LEAVES] using hmax)]
      simp only [expect_some, Except.ok_bind, getHash_eq_ok hread hpos]
      simp [appended, rootHash]
  | cons leaf rest =>
    obtain ⟨m, hm⟩ : ∃ m, (old ++ leaf :: rest).length = m + 1 := ⟨old.length + rest.length, by simp; omega⟩
    have hlen : old.length + (leaf :: rest).length = (old ++ leaf :: rest).length := List.length_append.symm
    obtain ⟨stack, hs, hloop⟩ := appendLeaves_eq_ok hread (leaf :: rest) old.length [] [] List.drop_left
      (by simp) le_rfl (leftPeaks_start _)
    rw [hm] at hs
    obtain ⟨stack', rfl, hs'⟩ := hs.pop (by rw [List.length_append, List.length_cons] at hm; omega)
    have ht := trailingOnes_pred_le_clog (n := m + 1) (by omega)
    rw [Nat.add_sub_cancel, ← hm] at ht
    have hwalk := rootWalk_eq_ok hread hm (Nat.clog 2 (old ++ leaf :: rest).length - trailingOnes m)
      (trailingOnes m) (by omega) stack' hs'
    rw [append, if_neg (by simp), hlen]
    dsimp only
    rw [rootLevelFromLeafCount_eq (by omega) (by rw [← hlen]; exact hmax)]
    simp only [expect_some, Except.ok_bind, hloop, level_ofCoords, hwalk, List.isEmpty_nil, if_true,
      List.nil_append]
    rfl

end Append

/-! ### The nodes `append` freezes -/

section Frozen

variable {node : HashValue → HashValue → HashValue} {placeholder : HashValue} {leaves : List HashValue}

theorem mem_climbNodes {m : ℕ} {w : Position × HashValue} :
    w ∈ climbNodes node placeholder leaves m ↔
      ∃ l ≤ trailingOnes m, w = frozenNode node placeholder leaves (l, m >>> l) := by
  simp only [climbNodes, List.mem_map, List.mem_range'_1]
  constructor
  · rintro ⟨l, hl, rfl⟩
    exact ⟨l, by omega, rfl⟩
  · rintro ⟨l, hl, rfl⟩
    exact ⟨l, by omega, rfl⟩

/-- The nodes leaves `n` to `n + k - 1` freeze: those whose rightmost leaf is
one of them. -/
theorem mem_appended_iff {n k : ℕ} {p : Position} :
    p ∈ ((List.range' n k).flatMap (climbNodes node placeholder leaves)).map Prod.fst ↔
      FrozenBy (n + k) p ∧ ¬ FrozenBy n p := by
  simp only [List.mem_map, List.mem_flatMap, List.mem_range'_1, mem_climbNodes]
  constructor
  · rintro ⟨w, ⟨m, hm, l, hl, rfl⟩, rfl⟩
    have hsucc := (shiftRight_succ_mul_two_pow hl).1
    refine ⟨⟨l, m >>> l, rfl, by omega⟩, ?_⟩
    rintro ⟨l', j', heq, hfull⟩
    obtain ⟨rfl, rfl⟩ := ofCoords_injective heq
    simp only at hfull
    omega
  · rintro ⟨⟨l, j, rfl, hfull⟩, hnot⟩
    have hpos : 1 ≤ (j + 1) * 2 ^ l := Nat.one_le_iff_ne_zero.mpr (Nat.mul_ne_zero (by omega) (by positivity))
    have hnew : n < (j + 1) * 2 ^ l := by
      by_contra h
      exact hnot ⟨l, j, rfl, by omega⟩
    obtain ⟨hl, hj⟩ := trailingOnes_of_succ_mul_two_pow l j
    refine ⟨_, ⟨(j + 1) * 2 ^ l - 1, by omega, l, hl, rfl⟩, ?_⟩
    simp only [frozenNode, hj]

/-- The post-order indices of the nodes leaves `n` to `n + k - 1` freeze are
the next ones after those of the first `n` leaves, in order. -/
theorem postorder_appended (n k : ℕ) :
    ((List.range' n k).flatMap (climbNodes node placeholder leaves)).map (fun w => w.1.toPostorderIndex) =
      List.range' (2 * n - countOnes n) (2 * (n + k) - countOnes (n + k) - (2 * n - countOnes n)) := by
  induction k generalizing n with
  | zero => simp
  | succ k ih =>
    have hclimb : (climbNodes node placeholder leaves n).map (fun w => w.1.toPostorderIndex) =
        List.range' (2 * n - countOnes n) (trailingOnes n + 1) := by
      rw [climbNodes, List.map_map]
      rw [List.map_congr_left (g := fun l => (2 * n - countOnes n) + l) fun l hl => by
        simp only [Function.comp, frozenNode, toPostorderIndex_ofCoords]
        exact postorder_shiftRight (by rw [List.mem_range'_1] at hl; omega)]
      rw [List.map_add_range', Nat.add_zero]
    have hnext := postorder_next n
    have hmono := postorderStart_le (n + 1) k
    rw [Nat.add_assoc n 1 k, Nat.add_comm 1 k, ← hnext] at hmono
    rw [List.range'_succ, List.flatMap_cons, List.map_append, hclimb, ih, Nat.add_assoc n 1 k, Nat.add_comm 1 k,
      ← hnext, Nat.add_assoc (2 * n - countOnes n), List.range'_append_1]
    congr 1
    omega

end Frozen

/-! ### The store, and runs of appends -/

section Store

variable {node : HashValue → HashValue → HashValue} {placeholder : HashValue}

theorem putMany_cons (s : MockHashStore) (w : Position × HashValue) (writes : List (Position × HashValue)) :
    s.putMany (w :: writes) = (⟨Function.update s.store w.1 (some w.2)⟩ : MockHashStore).putMany writes := rfl

/-- A position no write names keeps what the store held. -/
theorem putMany_store_of_not_mem {s : MockHashStore} {writes : List (Position × HashValue)} {p : Position}
    (h : p ∉ writes.map Prod.fst) : (s.putMany writes).store p = s.store p := by
  induction writes generalizing s with
  | nil => rfl
  | cons w writes ih =>
    rw [List.map_cons, List.mem_cons, not_or] at h
    rw [putMany_cons, ih h.2]
    exact Function.update_of_ne h.1 _ _

/-- A position written once holds what was written. -/
theorem putMany_store_of_mem {s : MockHashStore} {writes : List (Position × HashValue)} {p : Position}
    {h : HashValue} (hnd : (writes.map Prod.fst).Nodup) (hw : (p, h) ∈ writes) :
    (s.putMany writes).store p = some h := by
  induction writes generalizing s with
  | nil => simp at hw
  | cons w writes ih =>
    rw [List.map_cons, List.nodup_cons] at hnd
    rw [putMany_cons]
    rcases List.mem_cons.1 hw with rfl | hw
    · simp [putMany_store_of_not_mem hnd.1]
    · exact ih hnd.2 hw

theorem get_of_store {s : MockHashStore} {p : Position} {h : HashValue} (hp : s.store p = some h) :
    s.get p = .ok h := by
  rw [MockHashStore.get, hp]

theorem storeOk_new : StoreOk node placeholder MockHashStore.new [] := by
  intro l j
  have hpos : 0 < (j + 1) * 2 ^ l := Nat.mul_pos (Nat.succ_pos j) (Nat.two_pow_pos l)
  rw [List.length_nil, if_neg (by omega)]
  rfl

theorem readsFrozen_get {s : MockHashStore} {leaves : List HashValue} (hs : StoreOk node placeholder s leaves) :
    ReadsFrozen node placeholder s.get leaves leaves.length :=
  fun l j h => get_of_store ((hs l j).trans (if_pos h))

/-- A reader that agrees with a right store serves the nodes frozen before,
whatever leaves come after. -/
theorem readsFrozen_of_agrees {s : MockHashStore} {old new : List HashValue} (hs : StoreOk node placeholder s old)
    {reader : Position → Except String HashValue} (hr : ∀ p h, s.store p = some h → reader p = .ok h) :
    ReadsFrozen node placeholder reader (old ++ new) old.length := by
  intro l j hfull
  rw [hr _ _ ((hs l j).trans (if_pos hfull)), subtreeHash_append_of_full node placeholder hfull]

theorem eq_frozenNode_of_mem_appended {old new : List HashValue} {w : Position × HashValue}
    (hw : w ∈ appended node placeholder old new) : ∃ l j, w = frozenNode node placeholder (old ++ new) (l, j) := by
  obtain ⟨m, -, hm⟩ := List.mem_flatMap.1 hw
  obtain ⟨l, -, rfl⟩ := mem_climbNodes.1 hm
  exact ⟨l, m >>> l, rfl⟩

theorem nodup_appended (old new : List HashValue) : ((appended node placeholder old new).map Prod.fst).Nodup := by
  have h : ((appended node placeholder old new).map fun w => w.1.toPostorderIndex).Nodup := by
    rw [appended, postorder_appended]
    exact List.nodup_range'
  refine List.Nodup.of_map toPostorderIndex ?_
  rw [List.map_map]
  exact h

theorem store_eq_none_of_mem_appended {s : MockHashStore} {old new : List HashValue}
    (hs : StoreOk node placeholder s old) {p : Position} (hp : p ∈ (appended node placeholder old new).map Prod.fst) :
    s.store p = none := by
  obtain ⟨-, hnot⟩ := mem_appended_iff.1 hp
  obtain ⟨l, j, rfl⟩ : ∃ l j, p = ofCoords l j := ⟨_, _, eq_ofCoords p⟩
  rw [hs l j, if_neg fun h => hnot ⟨l, j, rfl, h⟩]

/-- **Writing what `append` returns keeps the store right**: a node frozen
before is not written and keeps its hash, one the call froze is written once
with its hash, and no other is written. -/
theorem storeOk_putMany {s : MockHashStore} {old new : List HashValue} (hs : StoreOk node placeholder s old) :
    StoreOk node placeholder (s.putMany (appended node placeholder old new)) (old ++ new) := by
  intro l j
  have hsame : ∀ {l' j'}, FrozenBy ((j + 1) * 2 ^ l) (ofCoords l' j') → ofCoords l' j' = ofCoords l j →
      (j' + 1) * 2 ^ l' = (j + 1) * 2 ^ l := by
    intro l' j' _ heq
    obtain ⟨rfl, rfl⟩ := ofCoords_injective heq
    rfl
  by_cases hold : (j + 1) * 2 ^ l ≤ old.length
  · have hnot : ofCoords l j ∉ (appended node placeholder old new).map Prod.fst :=
      fun hp => (mem_appended_iff.1 hp).2 ⟨l, j, rfl, hold⟩
    rw [putMany_store_of_not_mem hnot, hs l j, if_pos hold, if_pos (by simp; omega),
      subtreeHash_append_of_full node placeholder hold]
  · by_cases hnew : (j + 1) * 2 ^ l ≤ (old ++ new).length
    · have hp : ofCoords l j ∈ (appended node placeholder old new).map Prod.fst := by
        refine mem_appended_iff.2 ⟨⟨l, j, rfl, by simpa using hnew⟩, ?_⟩
        rintro ⟨l', j', heq, h⟩
        obtain ⟨rfl, rfl⟩ := ofCoords_injective heq
        exact hold h
      obtain ⟨w, hw, hwp⟩ := List.mem_map.1 hp
      obtain ⟨l', j', rfl⟩ := eq_frozenNode_of_mem_appended hw
      obtain ⟨rfl, rfl⟩ := ofCoords_injective hwp
      rw [putMany_store_of_mem (p := ofCoords l' j') (nodup_appended old new) hw, if_pos hnew]
    · have hnot : ofCoords l j ∉ (appended node placeholder old new).map Prod.fst := by
        intro hp
        obtain ⟨⟨l', j', heq, h⟩, -⟩ := mem_appended_iff.1 hp
        obtain ⟨rfl, rfl⟩ := ofCoords_injective heq
        exact hnew (by simpa using h)
      rw [putMany_store_of_not_mem hnot, hs l j, if_neg hold, if_neg hnew]

/-- One call from a right store, with leaves to spare: `append` succeeds and
its nodes are written. -/
theorem appendCall_eq {s : Accumulated} {newLeaves : List HashValue}
    (hs : StoreOk node placeholder s.store s.leaves)
    (hmax : s.leaves.length + newLeaves.length ≤ MAX_ACCUMULATOR_LEAVES) :
    appendCall node placeholder s newLeaves =
      (.ok (rootHash node placeholder (s.leaves ++ newLeaves)),
        ⟨s.store.putMany (appended node placeholder s.leaves newLeaves), s.leaves ++ newLeaves⟩) := by
  rw [appendCall, append_eq_ok (readsFrozen_of_agrees hs fun _ _ => get_of_store) hmax]

end Store

section Run

variable (node : HashValue → HashValue → HashValue) (placeholder : HashValue)

/-- What one call `t` of a run does right, with the nodes `toFreeze` it writes. -/
structure CallCorrect (t : Mealy.Transition Accumulated (List HashValue) (Except Failure HashValue))
    (toFreeze : List (Position × HashValue)) : Prop where
  /-- The root hash returned is the Merkle root of the leaves so far. -/
  output_eq : t.output = .ok (rootHash node placeholder t.post.leaves)
  /-- The call writes `toFreeze` and adds its leaves. -/
  post_eq : t.post = ⟨t.pre.store.putMany toFreeze, t.pre.leaves ++ t.input⟩
  /-- `get_root_hash` then reads that root. -/
  getRootHash_eq : 0 < t.post.leaves.length →
    getRootHash node placeholder t.post.store.get t.post.leaves.length = .ok (rootHash node placeholder t.post.leaves)
  /-- The nodes written are those the call's leaves freeze. -/
  written_iff : ∀ p, p ∈ toFreeze.map Prod.fst ↔ FrozenBy t.post.leaves.length p ∧ ¬ FrozenBy t.pre.leaves.length p
  /-- They are written in increasing post-order, so each once. -/
  postorder_lt : (toFreeze.map fun w => w.1.toPostorderIndex).Pairwise (· < ·)
  /-- None of them was in the store. -/
  written_absent : ∀ p ∈ toFreeze.map Prod.fst, t.pre.store.store p = none
  /-- Only nodes in the store are read: any reader that agrees with it there
  gives the same result. -/
  reads_stored : ∀ reader : Position → Except String HashValue,
    (∀ p h, t.pre.store.store p = some h → reader p = .ok h) →
      append node placeholder reader t.pre.leaves.length t.input = .ok (rootHash node placeholder t.post.leaves, toFreeze)

/-- The invariant of a run with the batches `is` still to come: the store is
right, and they fit in `MAX_ACCUMULATOR_LEAVES`. -/
def RunInv (s : Accumulated) (is : List (List HashValue)) : Prop :=
  StoreOk node placeholder s.store s.leaves ∧ s.leaves.length + (is.map List.length).sum ≤ MAX_ACCUMULATOR_LEAVES

variable {node placeholder}

theorem callCorrect {s : Accumulated} {newLeaves : List HashValue} (hs : StoreOk node placeholder s.store s.leaves)
    (hmax : s.leaves.length + newLeaves.length ≤ MAX_ACCUMULATOR_LEAVES) :
    CallCorrect node placeholder (Mealy.transition (appendCall node placeholder) s newLeaves)
      (appended node placeholder s.leaves newLeaves) := by
  have hcall := appendCall_eq hs hmax
  have hpost : StoreOk node placeholder (s.store.putMany (appended node placeholder s.leaves newLeaves))
      (s.leaves ++ newLeaves) := storeOk_putMany hs
  simp only [Mealy.transition, hcall]
  refine ⟨rfl, rfl, fun hN => getRootHash_eq_ok (readsFrozen_get hpost) hN ?_, ?_, ?_,
    fun p hp => store_eq_none_of_mem_appended hs hp, fun reader hr => append_eq_ok (readsFrozen_of_agrees hs hr) hmax⟩
  · simpa using hmax
  · intro p
    rw [List.length_append]
    exact mem_appended_iff
  · rw [appended, postorder_appended]
    exact List.pairwise_lt_range'

theorem runInv_step {s : Accumulated} {newLeaves : List HashValue} {is : List (List HashValue)}
    (h : RunInv node placeholder s (newLeaves :: is)) : RunInv node placeholder (appendCall node placeholder s newLeaves).2 is := by
  obtain ⟨hs, hbound⟩ := h
  rw [List.map_cons, List.sum_cons] at hbound
  rw [appendCall_eq hs (by omega)]
  exact ⟨storeOk_putMany hs, by rw [List.length_append]; omega⟩

/-- **Appends are correct along every run** from the empty store that stays
within `MAX_ACCUMULATOR_LEAVES` leaves: each call returns the Merkle root of
the leaves so far, which `get_root_hash` then reads; it writes exactly the
nodes its leaves freeze, in increasing post-order and on free positions; and
it reads only nodes already written. -/
theorem append_run_correct (batches : List (List HashValue))
    (hmax : (batches.map List.length).sum ≤ MAX_ACCUMULATOR_LEAVES) :
    ∀ t ∈ Mealy.trace (appendCall node placeholder) Accumulated.empty batches,
      ∃ toFreeze, CallCorrect node placeholder t toFreeze := by
  have hinit : RunInv node placeholder Accumulated.empty batches :=
    ⟨storeOk_new, by simpa [Accumulated.empty] using hmax⟩
  refine Mealy.forall_trace_of_remaining (appendCall node placeholder) (fun _ _ _ h => runInv_step h) ?_ hinit
  rintro s newLeaves is ⟨hs, hbound⟩
  rw [List.map_cons, List.sum_cons] at hbound
  exact ⟨_, callCorrect hs (by omega)⟩

end Run

/-- Appending three leaves in two batches with the hashes of `exampleNode`. -/
theorem append_run_correct_twoBatches :
    (([[⟨5⟩, ⟨8⟩], [⟨11⟩]] : List (List HashValue)).map List.length).sum ≤ MAX_ACCUMULATOR_LEAVES ∧
      ∀ t ∈ Mealy.trace (appendCall exampleNode ⟨2⟩) Accumulated.empty [[⟨5⟩, ⟨8⟩], [⟨11⟩]],
        ∃ toFreeze, CallCorrect exampleNode ⟨2⟩ t toFreeze :=
  ⟨by decide, append_run_correct [[⟨5⟩, ⟨8⟩], [⟨11⟩]] (by decide)⟩

/-- With no leaves, appending none returns the placeholder, but
`get_root_hash` panics in `root_from_leaf_count`. -/
theorem getRootHash_zero_panics :
    append exampleNode ⟨2⟩ MockHashStore.new.get 0 [] = .ok (⟨2⟩, []) ∧
      getRootHash exampleNode ⟨2⟩ MockHashStore.new.get 0 = .error .panic :=
  ⟨rfl, rfl⟩

end MerkleAccumulator

end Diem
