import Mathlib.Data.List.Range

/-!
# Sparse Merkle trees

A sparse Merkle tree holds entries, a key and a value each, under keys read
as `depth` bits from the top. The subtree at depth `d` holds the entries whose
keys begin with its path and splits them by bit `d` of their keys. A subtree
that holds no entry is a placeholder, and one that holds a single entry is the
leaf of that entry, at whatever depth: only a subtree of two entries or more
is an internal node (`subtreeHash`).

The hashes of a leaf and of an internal node are parameters `leaf` and `node`.
Soundness of proofs against such a root needs both injective, and leaves,
internal nodes and the placeholder kept apart (`Separated`). `climb` rebuilds
a root from a hash and the siblings of the path above it, deepest first, each
on the side the bit of a key at its depth says. `eq_subtreeHash_of_climb` is
its soundness: a climb of `n` levels that reaches the root started from the
subtree holding the entries whose keys share the key's first `n` bits. What
that subtree can be gives the three results: a leaf there is an entry
(`mem_of_climb_leaf`); the leaf of another key there
(`not_mem_of_climb_leaf`), or the placeholder there when any two keys differ
in their `depth` bits (`not_mem_of_climb_placeholder`), means the key has no
entry.
-/

namespace SparseMerkleTree

variable {K V H : Type} (bit : K → ℕ → Bool) (leaf : K → V → H) (node : H → H → H) (placeholder : H)

/-- The hash of the subtree at depth `d`, with `h` levels below it, that holds `entries`. -/
def subtreeHash : ℕ → ℕ → List (K × V) → H
  | _, _, [] => placeholder
  | _, _, [e] => leaf e.1 e.2
  | _, 0, _ :: _ :: _ => placeholder
  | d, h + 1, e₁ :: e₂ :: rest =>
    node (subtreeHash (d + 1) h ((e₁ :: e₂ :: rest).filter fun e => !bit e.1 d))
      (subtreeHash (d + 1) h ((e₁ :: e₂ :: rest).filter fun e => bit e.1 d))

/-- The root of a tree whose keys have `depth` bits. -/
def rootHash (depth : ℕ) (entries : List (K × V)) : H :=
  subtreeHash bit leaf node placeholder 0 depth entries

/-- The entries whose keys begin with the first `n` bits of `key`. -/
def withPrefix (key : K) (n : ℕ) (entries : List (K × V)) : List (K × V) :=
  entries.filter fun e => (List.range n).all fun i => bit e.1 i == bit key i

/-- The first `n` bits of `key`, deepest first: the sides of a climb from depth `n`. -/
def pathBits (key : K) (n : ℕ) : List Bool := (List.range n).reverse.map (bit key)

/-- One level of a climb: the sibling goes on the left when the bit is set. -/
def climbStep (hash : H) (step : H × Bool) : H :=
  if step.2 then node step.1 hash else node hash step.1

/-- The hash a climb from `start` reaches. -/
def climb (steps : List (H × Bool)) (start : H) : H := steps.foldl (climbStep node) start

/-- What a proof against a sparse Merkle root needs of the hashes: `leaf` and
`node` are injective, and leaves, internal nodes and the placeholder never
coincide. -/
structure Separated : Prop where
  leaf_injective : ∀ {k k' : K} {v v' : V}, leaf k v = leaf k' v' → k = k' ∧ v = v'
  node_injective : ∀ {a b c d : H}, node a b = node c d → a = c ∧ b = d
  leaf_ne_node : ∀ k v a b, leaf k v ≠ node a b
  leaf_ne_placeholder : ∀ k v, leaf k v ≠ placeholder
  node_ne_placeholder : ∀ a b, node a b ≠ placeholder

/-- Any two entries differ in one of the first `depth` bits of their keys. -/
def Distinct (depth : ℕ) (entries : List (K × V)) : Prop :=
  entries.Pairwise fun e₁ e₂ => ∃ i < depth, bit e₁.1 i ≠ bit e₂.1 i

theorem withPrefix_zero (key : K) (entries : List (K × V)) : withPrefix bit key 0 entries = entries := by
  simp [withPrefix]

theorem withPrefix_succ (key : K) (n : ℕ) (entries : List (K × V)) :
    withPrefix bit key (n + 1) entries = (withPrefix bit key n entries).filter fun e => bit e.1 n == bit key n := by
  rw [withPrefix, withPrefix, List.filter_filter]
  refine List.filter_congr fun e _ => ?_
  rw [List.range_succ, List.all_append, List.all_cons, List.all_nil, Bool.and_true, Bool.and_comm]

theorem mem_withPrefix_of_fst_eq {key : K} {n : ℕ} {entries : List (K × V)} {e : K × V} (he : e ∈ entries)
    (hkey : e.1 = key) : e ∈ withPrefix bit key n entries :=
  List.mem_filter.mpr ⟨he, by simp [hkey]⟩

theorem bit_eq_of_mem_withPrefix {key : K} {n : ℕ} {entries : List (K × V)} {e : K × V}
    (he : e ∈ withPrefix bit key n entries) {i : ℕ} (hi : i < n) : bit e.1 i = bit key i := by
  have hall := (List.mem_filter.mp he).2
  simp only [List.all_eq_true, List.mem_range, beq_iff_eq] at hall
  exact hall i hi

/-- At the full depth, distinct keys leave at most one entry under a prefix. -/
theorem length_withPrefix_le_one {depth : ℕ} {entries : List (K × V)} (hdistinct : Distinct bit depth entries)
    (key : K) : (withPrefix bit key depth entries).length ≤ 1 := by
  have hpw : Distinct bit depth (withPrefix bit key depth entries) := hdistinct.sublist List.filter_sublist
  match hE : withPrefix bit key depth entries with
  | [] => exact Nat.zero_le 1
  | [_] => exact le_rfl
  | e₁ :: e₂ :: rest =>
    rw [Distinct, hE] at hpw
    obtain ⟨i, hi, hne⟩ := List.rel_of_pairwise_cons hpw List.mem_cons_self
    have h₁ := bit_eq_of_mem_withPrefix bit (hE ▸ List.mem_cons_self : e₁ ∈ withPrefix bit key depth entries) hi
    have h₂ := bit_eq_of_mem_withPrefix bit
      (hE ▸ List.mem_cons_of_mem e₁ List.mem_cons_self : e₂ ∈ withPrefix bit key depth entries) hi
    exact absurd (h₁.trans h₂.symm) hne

@[simp] theorem length_pathBits (key : K) (n : ℕ) : (pathBits bit key n).length = n := by
  simp [pathBits]

theorem pathBits_succ (key : K) (n : ℕ) : pathBits bit key (n + 1) = bit key n :: pathBits bit key n := by
  simp [pathBits, List.range_succ]

/-- The last `n` of the `depth` bits of a key, read from the bottom up, are the
bits of a climb from depth `n`. -/
theorem reverse_drop_eq_pathBits (key : K) {n depth : ℕ} (hn : n ≤ depth) :
    ((List.range depth).map (bit key)).reverse.drop (depth - n) = pathBits bit key n := by
  obtain ⟨m, rfl⟩ := Nat.exists_eq_add_of_le hn
  have hlen : (((List.range m).map (fun x => n + x)).map (bit key)).reverse.length = n + m - n := by simp
  rw [List.range_add, List.map_append, List.reverse_append, ← hlen, List.drop_left, pathBits, List.map_reverse]

theorem climb_cons (step : H × Bool) (steps : List (H × Bool)) (start : H) :
    climb node (step :: steps) start = climb node steps (climbStep node start step) := rfl

/-- What a subtree is: the placeholder, over no entries or over entries too
low to split; the leaf of its one entry; or the node of its two halves. -/
theorem subtreeHash_cases (d h : ℕ) (entries : List (K × V)) :
    (subtreeHash bit leaf node placeholder d h entries = placeholder ∧
        (entries = [] ∨ h = 0 ∧ 2 ≤ entries.length)) ∨
      (∃ e, entries = [e] ∧ subtreeHash bit leaf node placeholder d h entries = leaf e.1 e.2) ∨
      (1 ≤ h ∧ subtreeHash bit leaf node placeholder d h entries =
        node (subtreeHash bit leaf node placeholder (d + 1) (h - 1) (entries.filter fun e => !bit e.1 d))
          (subtreeHash bit leaf node placeholder (d + 1) (h - 1) (entries.filter fun e => bit e.1 d))) := by
  rcases entries with _ | ⟨e₁, _ | ⟨e₂, rest⟩⟩
  · exact .inl ⟨by rw [subtreeHash], .inl rfl⟩
  · exact .inr (.inl ⟨e₁, rfl, by rw [subtreeHash]⟩)
  · cases h with
    | zero => exact .inl ⟨by rw [subtreeHash], .inr ⟨rfl, Nat.le_add_left 2 rest.length⟩⟩
    | succ h => exact .inr (.inr ⟨Nat.le_add_left 1 h, by rw [subtreeHash, Nat.add_sub_cancel]⟩)

section Separated

variable {bit leaf node placeholder} (hsep : Separated leaf node placeholder)
include hsep

/-- Only a subtree without entries, or one too low to split its entries, is the placeholder. -/
theorem entries_of_placeholder_eq {d h : ℕ} {entries : List (K × V)}
    (heq : placeholder = subtreeHash bit leaf node placeholder d h entries) :
    entries = [] ∨ h = 0 ∧ 2 ≤ entries.length := by
  rcases subtreeHash_cases bit leaf node placeholder d h entries with ⟨-, hentries⟩ | ⟨e, -, hleaf⟩ | ⟨-, hnode⟩
  · exact hentries
  · exact absurd (heq.trans hleaf).symm (hsep.leaf_ne_placeholder e.1 e.2)
  · exact absurd (heq.trans hnode).symm (hsep.node_ne_placeholder _ _)

/-- A leaf standing at a place of the tree is the only entry below it. -/
theorem eq_singleton_of_leaf_eq {k : K} {v : V} {d h : ℕ} {entries : List (K × V)}
    (heq : leaf k v = subtreeHash bit leaf node placeholder d h entries) : entries = [(k, v)] := by
  rcases subtreeHash_cases bit leaf node placeholder d h entries with ⟨hplaceholder, -⟩ | ⟨e, he, hleaf⟩ | ⟨-, hnode⟩
  · exact absurd (heq.trans hplaceholder) (hsep.leaf_ne_placeholder k v)
  · obtain ⟨hk, hv⟩ := hsep.leaf_injective (heq.trans hleaf)
    rw [he, hk, hv]
  · exact absurd (heq.trans hnode) (hsep.leaf_ne_node k v _ _)

/-- A node standing at a place of the tree splits the entries below it by
the bit of their keys at that depth. -/
theorem children_of_node_eq {a b : H} {d h : ℕ} {entries : List (K × V)}
    (heq : node a b = subtreeHash bit leaf node placeholder d h entries) :
    1 ≤ h ∧ a = subtreeHash bit leaf node placeholder (d + 1) (h - 1) (entries.filter fun e => !bit e.1 d) ∧
      b = subtreeHash bit leaf node placeholder (d + 1) (h - 1) (entries.filter fun e => bit e.1 d) := by
  rcases subtreeHash_cases bit leaf node placeholder d h entries with ⟨hplaceholder, -⟩ | ⟨e, -, hleaf⟩ | ⟨hh, hnode⟩
  · exact absurd (heq.trans hplaceholder) (hsep.node_ne_placeholder a b)
  · exact absurd (heq.trans hleaf).symm (hsep.leaf_ne_node _ _ a b)
  · obtain ⟨ha, hb⟩ := hsep.node_injective (heq.trans hnode)
    exact ⟨hh, ha, hb⟩

/-- The hash a step of a climb started from is the child on the side of its bit. -/
theorem eq_child_of_climbStep_eq {x s : H} {b : Bool} {d h : ℕ} {entries : List (K × V)}
    (heq : climbStep node x (s, b) = subtreeHash bit leaf node placeholder d h entries) :
    1 ≤ h ∧ x = subtreeHash bit leaf node placeholder (d + 1) (h - 1) (entries.filter fun e => bit e.1 d == b) := by
  cases b with
  | false =>
    obtain ⟨hh, hx, -⟩ := children_of_node_eq hsep heq
    simp only [beq_false]
    exact ⟨hh, hx⟩
  | true =>
    obtain ⟨hh, -, hx⟩ := children_of_node_eq hsep heq
    simp only [beq_true]
    exact ⟨hh, hx⟩

/-- **A climb that reaches the root is sound.** A climb of `n` levels along the
bits of `key` started from the subtree at depth `n` that holds the entries
whose keys share the first `n` bits of `key`. -/
theorem eq_subtreeHash_of_climb {depth : ℕ} {entries : List (K × V)} {key : K} :
    ∀ {siblings : List H} {x : H}, siblings.length ≤ depth →
      climb node (siblings.zip (pathBits bit key siblings.length)) x = rootHash bit leaf node placeholder depth entries →
      x = subtreeHash bit leaf node placeholder siblings.length (depth - siblings.length)
        (withPrefix bit key siblings.length entries)
  | [], x, _, h => by
    rw [List.length_nil, Nat.sub_zero, withPrefix_zero]
    exact h
  | s :: siblings, x, hle, h => by
    rw [List.length_cons, pathBits_succ, List.zip_cons_cons, climb_cons] at h
    rw [List.length_cons] at hle
    -- the first step's parent is where the rest of the climb started
    have hparent := eq_subtreeHash_of_climb (Nat.le_of_succ_le hle) h
    obtain ⟨-, hx⟩ := eq_child_of_climbStep_eq hsep hparent
    rw [hx, List.length_cons, Nat.sub_sub, withPrefix_succ]

/-- **Inclusion.** A climb from the leaf of `(k, v)` along the bits of `k` that
reaches the root proves that `(k, v)` is an entry. -/
theorem mem_of_climb_leaf {depth : ℕ} {entries : List (K × V)} {siblings : List H} {k : K} {v : V}
    (hle : siblings.length ≤ depth)
    (h : climb node (siblings.zip (pathBits bit k siblings.length)) (leaf k v) =
      rootHash bit leaf node placeholder depth entries) :
    (k, v) ∈ entries := by
  have hsingle := eq_singleton_of_leaf_eq hsep (eq_subtreeHash_of_climb hsep hle h)
  have hmem : (k, v) ∈ withPrefix bit k siblings.length entries := by
    rw [hsingle]
    exact List.mem_singleton_self _
  exact List.mem_of_mem_filter hmem

/-- **Non-inclusion by a foreign leaf.** A climb along the bits of `key` from
the leaf of another key that reaches the root proves that `key` has no entry. -/
theorem not_mem_of_climb_leaf {depth : ℕ} {entries : List (K × V)} {siblings : List H} {key k : K} {v : V}
    (hne : key ≠ k) (hle : siblings.length ≤ depth)
    (h : climb node (siblings.zip (pathBits bit key siblings.length)) (leaf k v) =
      rootHash bit leaf node placeholder depth entries)
    (w : V) : (key, w) ∉ entries := by
  intro hmem
  have hsingle := eq_singleton_of_leaf_eq hsep (eq_subtreeHash_of_climb hsep hle h)
  have hprefix : (key, w) ∈ withPrefix bit key siblings.length entries := mem_withPrefix_of_fst_eq bit hmem rfl
  rw [hsingle, List.mem_singleton, Prod.mk.injEq] at hprefix
  exact hne hprefix.1

/-- **Non-inclusion by an empty subtree.** When any two keys differ in their
`depth` bits, a climb along the bits of `key` from the placeholder that
reaches the root proves that `key` has no entry. -/
theorem not_mem_of_climb_placeholder {depth : ℕ} {entries : List (K × V)} (hdistinct : Distinct bit depth entries)
    {siblings : List H} {key : K} (hle : siblings.length ≤ depth)
    (h : climb node (siblings.zip (pathBits bit key siblings.length)) placeholder =
      rootHash bit leaf node placeholder depth entries)
    (w : V) : (key, w) ∉ entries := by
  intro hmem
  have hprefix : (key, w) ∈ withPrefix bit key siblings.length entries := mem_withPrefix_of_fst_eq bit hmem rfl
  rcases entries_of_placeholder_eq hsep (eq_subtreeHash_of_climb hsep hle h) with hnil | ⟨hbottom, htwo⟩
  · rw [hnil] at hprefix
    exact List.not_mem_nil hprefix
  · -- the climb started at the bottom, where distinct keys leave one entry at most
    have hdepth : siblings.length = depth := by omega
    have hone := length_withPrefix_le_one bit hdistinct key
    rw [← hdepth] at hone
    omega

end Separated

end SparseMerkleTree
