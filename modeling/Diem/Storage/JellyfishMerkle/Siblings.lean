import Mathlib
import Diem.Theory.SparseMerkleTree
import Diem.Storage.JellyfishMerkle.Encode
import Diem.Storage.JellyfishMerkle.NodeKey

/-!
# The proof of a child of an internal node

`InternalNode::get_child_with_siblings` of
`storage/jellyfish-merkle/src/node_type/mod.rs`. The sixteen children of an
internal node are the leaves of a binary tree of height four, hashed by
`merkle_hash`: a range of nibbles with no child is the placeholder, and a range
whose single child is a leaf is that leaf. From height three down, the walk
toward nibble `n` collects the hash of the range beside the one holding `n`, and
stops at the first range holding `n` that is empty or is one child.

The loop `for h in (0..4).rev()` is `getChildWithSiblingsLoop`, and the
`unreachable!` after it is a panic. Above the code, `childrenIn` lists the
children in an aligned range and `rangeHash` is the hash of the range said of
them; a proof checker climbs the siblings with `SparseMerkleTree.climb`.

`merkle_hash` computes the range hash, and `InternalNode::hash` is the hash of
all sixteen nibbles (`merkleHash_eq_rangeHash`, `hash_eq_rangeHash`). So
**`getChildWithSiblings_agrees`**: climbing the siblings the walk returns, from
the hash of the child it returns or from the placeholder, gives
`InternalNode::hash`; and a child at another nibble than `n` in the range where
the walk stopped is a leaf, the only child there.
-/

namespace UInt16

/-- A `u16` is read off its sixteen bits. -/
theorem toNat_eq_of_testBit {x : UInt16} {m : ℕ} (hm : m < 2 ^ 16)
    (h : ∀ i : Fin 16, x.toNat.testBit i = m.testBit i) : x.toNat = m := by
  apply Nat.eq_of_testBit_eq
  intro j
  by_cases hj : j < 16
  · exact h ⟨j, hj⟩
  · -- above the sixteen bits both are zero
    have h16 : 2 ^ 16 ≤ 2 ^ j := Nat.pow_le_pow_right (by decide) (by omega)
    rw [Nat.testBit_lt_two_pow (lt_of_lt_of_le x.toNat_lt h16), Nat.testBit_lt_two_pow (lt_of_lt_of_le hm h16)]

theorem eq_zero_iff_testBit {x : UInt16} : x = 0 ↔ ∀ i : Fin 16, x.toNat.testBit i = false := by
  constructor
  · rintro rfl i
    simp
  · intro h
    apply UInt16.toNat_inj.mp
    rw [UInt16.toNat_zero]
    exact toNat_eq_of_testBit (by decide) fun i => by rw [h i, Nat.zero_testBit]

end UInt16

namespace Diem.JellyfishMerkle

/-! ### The walk -/

section Walk

variable (node : HashValue → HashValue → HashValue) (placeholder : HashValue)

/-- The loop `for h in (0..4).rev()` of `get_child_with_siblings`, at the
heights below `height`, after the siblings of the heights above. -/
def InternalNode.getChildWithSiblingsLoop (n : InternalNode) (nodeKey : NodeType.NodeKey) (nibble : Nibble)
    (bitmaps : UInt16 × UInt16) : ℕ → List HashValue → Except Failure (Option NodeType.NodeKey × List HashValue)
  | 0, _ => .error (.panic "internal error: entered unreachable code: Impossible to get here without returning even at the lowest level.")
  | h + 1, siblings => do
    let width := 2 ^ h
    let (childHalfStart, siblingHalfStart) := getChildAndSiblingHalfStart nibble h
    let siblingHash ← n.merkleHash node placeholder h siblingHalfStart.toNat bitmaps
    let siblings := siblings ++ [siblingHash]
    let (rangeExistenceBitmap, rangeLeafBitmap) ← rangeBitmaps childHalfStart.toNat width bitmaps
    if rangeExistenceBitmap = 0 then .ok (none, siblings)
    else if width = 1 ∨ (rangeExistenceBitmap.countOnes = 1 ∧ rangeLeafBitmap ≠ 0) then do
      let onlyChildIndex ← Nibble.fromU8 rangeExistenceBitmap.trailingZeros
      match n.child onlyChildIndex with
      | some child => do
        let childKey ← nodeKey.genChildNodeKey child.version.toUInt64 onlyChildIndex
        .ok (some childKey, siblings)
      | none => .error (.panic "Corrupted internal node: child_bitmap indicates the existence of a non-exist child")
    else n.getChildWithSiblingsLoop nodeKey nibble bitmaps h siblings

/-- `InternalNode::get_child_with_siblings`. -/
def InternalNode.getChildWithSiblings (n : InternalNode) (nodeKey : NodeType.NodeKey) (nibble : Nibble) :
    Except Failure (Option NodeType.NodeKey × List HashValue) := do
  let bitmaps ← n.generateBitmaps
  n.getChildWithSiblingsLoop node placeholder nodeKey nibble bitmaps 4 []

end Walk

/-! ### Aligned ranges -/

/-- The `2 ^ h` nibbles from `start` are a range of height `h` of a node:
`start` is a multiple of `2 ^ h` below sixteen. -/
structure Aligned (h start : ℕ) : Prop where
  height_le : h ≤ 4
  dvd : 2 ^ h ∣ start
  lt : start < 16

namespace Aligned

variable {h start : ℕ}

theorem add_le (ha : Aligned h start) : start + 2 ^ h ≤ 16 := by
  obtain ⟨k, rfl⟩ := ha.dvd
  have h16 : 2 ^ h * 2 ^ (4 - h) = 16 := by rw [← Nat.pow_add, Nat.add_sub_cancel' ha.height_le]
  have hk : k < 2 ^ (4 - h) := Nat.lt_of_mul_lt_mul_left (h16 ▸ ha.lt)
  calc 2 ^ h * k + 2 ^ h = 2 ^ h * (k + 1) := by rw [Nat.mul_succ]
    _ ≤ 2 ^ h * 2 ^ (4 - h) := Nat.mul_le_mul_left _ hk
    _ = 16 := h16

theorem left (ha : Aligned (h + 1) start) : Aligned h start :=
  ⟨by have := ha.height_le; omega, (Nat.pow_dvd_pow 2 (Nat.le_succ h)).trans ha.dvd, ha.lt⟩

theorem right (ha : Aligned (h + 1) start) : Aligned h (start + 2 ^ h) := by
  refine ⟨by have := ha.height_le; omega, Nat.dvd_add ((Nat.pow_dvd_pow 2 (Nat.le_succ h)).trans ha.dvd) dvd_rfl, ?_⟩
  have hle := ha.add_le
  have hpos := Nat.two_pow_pos h
  rw [Nat.pow_succ] at hle
  omega

/-- The range of height `h` around a nibble. -/
theorem of_nibble (nibble : Nibble) (hh : h ≤ 4) : Aligned h (nibble.val / 2 ^ h * 2 ^ h) :=
  ⟨hh, Dvd.intro_left _ rfl, lt_of_le_of_lt (Nat.div_mul_le_self _ _) nibble.isLt⟩

end Aligned

/-- A nibble lies in the range of height `h` around `a` when it agrees with `a`
above bit `h`. -/
theorem mem_range_iff {a j k : ℕ} (hk : 0 < k) : (a / k * k ≤ j ∧ j < a / k * k + k) ↔ j / k = a / k := by
  constructor
  · rintro ⟨h1, h2⟩
    exact Nat.div_eq_of_lt_le h1 (by rw [Nat.add_mul, Nat.one_mul]; omega)
  · intro h
    rw [← h]
    exact ⟨Nat.div_mul_le_self j k, Nat.lt_div_mul_add hk⟩

/-- Where the ranges around a nibble start: `get_child_and_sibling_half_start`
at height `h` gives the range of height `h` holding the nibble and the one
beside it. -/
theorem halfStart_eq : ∀ nibble : Nibble, ∀ h < 4,
    (getChildAndSiblingHalfStart nibble h).1.toNat = nibble.val / 2 ^ h * 2 ^ h ∧
    (getChildAndSiblingHalfStart nibble h).2.toNat = (nibble.val / 2 ^ h ^^^ 1) * 2 ^ h := by
  decide

/-- The range of height `h + 1` around a nibble is the range of height `h`
holding it and the one beside it, on the side bit `h` of the nibble says. -/
theorem halves_eq : ∀ nibble : Nibble, ∀ h < 4,
    (nibble.val.testBit h = false → nibble.val / 2 ^ h * 2 ^ h = nibble.val / 2 ^ (h + 1) * 2 ^ (h + 1) ∧
      (nibble.val / 2 ^ h ^^^ 1) * 2 ^ h = nibble.val / 2 ^ (h + 1) * 2 ^ (h + 1) + 2 ^ h) ∧
    (nibble.val.testBit h = true → nibble.val / 2 ^ h * 2 ^ h = nibble.val / 2 ^ (h + 1) * 2 ^ (h + 1) + 2 ^ h ∧
      (nibble.val / 2 ^ h ^^^ 1) * 2 ^ h = nibble.val / 2 ^ (h + 1) * 2 ^ (h + 1)) := by
  decide

/-! ### The children of a range -/

/-- The children of `n` in the range of `2 ^ h` nibbles from `start`, by nibble. -/
def InternalNode.childrenIn (n : InternalNode) (h start : ℕ) : List (Nibble × Child) :=
  (List.finRange 16).filterMap fun i =>
    if start ≤ i.val ∧ i.val < start + 2 ^ h then (n.child i).map (i, ·) else none

/-- What the tests of `merkle_hash` and of the walk find in a range. -/
inductive RangeView where
  /-- No child: the placeholder. -/
  | empty
  /-- The one child the range is: alone on a single nibble, or the only child
  and a leaf. -/
  | only (i : Nibble) (child : Child)
  /-- The node of the two halves. -/
  | split
  deriving DecidableEq, Repr

/-- The view of the range of height `h` from `start`. -/
def InternalNode.rangeView (n : InternalNode) (h start : ℕ) : RangeView :=
  match n.childrenIn h start with
  | [] => .empty
  | [(i, child)] => if h = 0 ∨ child.isLeaf then .only i child else .split
  | _ => .split

section RangeHash

variable (node : HashValue → HashValue → HashValue) (placeholder : HashValue)

/-- The hash of the range of height `h` from `start`, said of the children. -/
def InternalNode.rangeHash (n : InternalNode) (h start : ℕ) : HashValue :=
  match n.rangeView h start, h with
  | .empty, _ => placeholder
  | .only _ child, _ => child.hash
  -- a single nibble holds one child at most, so it never splits
  | .split, 0 => placeholder
  | .split, h + 1 => node (n.rangeHash h start) (n.rangeHash h (start + 2 ^ h))

end RangeHash

/-! ### The children of a range, listed -/

namespace InternalNode

variable {n : InternalNode} {h start : ℕ} {i : Nibble} {c : Child}

theorem mem_childrenIn : (i, c) ∈ n.childrenIn h start ↔ start ≤ i.val ∧ i.val < start + 2 ^ h ∧ n.child i = some c := by
  simp only [childrenIn, List.mem_filterMap, List.mem_finRange, true_and]
  constructor
  · rintro ⟨j, hj⟩
    split_ifs at hj with hr
    · obtain ⟨c', hc', hjc⟩ := Option.map_eq_some_iff.1 hj
      cases hjc
      exact ⟨hr.1, hr.2, hc'⟩
  · rintro ⟨h1, h2, hc⟩
    exact ⟨i, by rw [if_pos ⟨h1, h2⟩, hc]; rfl⟩

/-- The children in the range of height `h` around `a` are those whose nibbles
agree with `a` above height `h`. -/
theorem mem_childrenIn_around {a : ℕ} :
    (i, c) ∈ n.childrenIn h (a / 2 ^ h * 2 ^ h) ↔ i.val / 2 ^ h = a / 2 ^ h ∧ n.child i = some c := by
  rw [mem_childrenIn, ← and_assoc, mem_range_iff (Nat.two_pow_pos h)]

theorem nodup_childrenIn : (n.childrenIn h start).Nodup := by
  have hfst : ∀ (a : Nibble) (b : Nibble × Child),
      b ∈ (if start ≤ a.val ∧ a.val < start + 2 ^ h then (n.child a).map (a, ·) else none) → b.1 = a := by
    intro a b hb
    split_ifs at hb
    · obtain ⟨c, -, rfl⟩ := Option.map_eq_some_iff.1 hb
      rfl
    · cases hb
  exact List.Nodup.filterMap (fun a a' b ha ha' => (hfst a b ha).symm.trans (hfst a' b ha')) (List.nodup_finRange 16)

/-- Two children listed in a range are at two nibbles. -/
theorem fst_ne_of_childrenIn_eq {a b : Nibble × Child} {rest : List (Nibble × Child)}
    (hl : n.childrenIn h start = a :: b :: rest) : a.1 ≠ b.1 := by
  intro hab
  have ha := (mem_childrenIn (i := a.1) (c := a.2)).1 (hl ▸ List.mem_cons_self)
  have hb := (mem_childrenIn (i := b.1) (c := b.2)).1 (hl ▸ List.mem_cons_of_mem _ List.mem_cons_self)
  have hc : a.2 = b.2 := Option.some_injective _ (ha.2.2.symm.trans (hab ▸ hb.2.2))
  have hnd : (n.childrenIn h start).Nodup := InternalNode.nodup_childrenIn
  rw [hl, List.nodup_cons] at hnd
  exact hnd.1 (by rw [Prod.ext hab hc]; exact List.mem_cons_self)

/-- A single nibble holds one child at most. -/
theorem childrenIn_zero_ne {a b : Nibble × Child} {rest : List (Nibble × Child)} :
    n.childrenIn 0 start ≠ a :: b :: rest := by
  intro hl
  have ha := (mem_childrenIn (i := a.1) (c := a.2)).1 (hl ▸ List.mem_cons_self)
  have hb := (mem_childrenIn (i := b.1) (c := b.2)).1 (hl ▸ List.mem_cons_of_mem _ List.mem_cons_self)
  exact fst_ne_of_childrenIn_eq hl (Fin.ext (by rw [Nat.pow_zero] at ha hb; omega))

theorem rangeView_eq_empty_iff : n.rangeView h start = .empty ↔ n.childrenIn h start = [] := by
  unfold rangeView
  split
  · simp_all
  · split_ifs <;> simp_all
  · simp_all

theorem childrenIn_of_rangeView_eq_only (hv : n.rangeView h start = .only i c) :
    n.childrenIn h start = [(i, c)] ∧ (h = 0 ∨ c.isLeaf = true) := by
  unfold rangeView at hv
  split at hv
  · cases hv
  · split_ifs at hv with hleaf
    cases hv
    exact ⟨by assumption, hleaf⟩
  · cases hv

/-- A range splits when it holds one child that is neither alone on its nibble
nor a leaf, or holds two children or more. -/
theorem childrenIn_of_rangeView_eq_split (hv : n.rangeView h start = .split) :
    (∃ j d, n.childrenIn h start = [(j, d)] ∧ h ≠ 0 ∧ d.isLeaf = false) ∨
      ∃ a b rest, n.childrenIn h start = a :: b :: rest := by
  unfold rangeView at hv
  split at hv
  · cases hv
  · rename_i j d hl
    split_ifs at hv with hleaf
    push Not at hleaf
    exact .inl ⟨j, d, hl, hleaf.1, by simpa using hleaf.2⟩
  · rename_i hne hone
    rcases hl : n.childrenIn h start with _ | ⟨a, _ | ⟨b, rest⟩⟩
    · exact absurd hl hne
    · exact absurd hl (hone a.1 a.2)
    · exact .inr ⟨a, b, rest, rfl⟩

end InternalNode

section RangeHash

variable (node : HashValue → HashValue → HashValue) (placeholder : HashValue)
variable {n : InternalNode} {h start : ℕ}

theorem rangeHash_of_empty (hv : n.rangeView h start = .empty) : n.rangeHash node placeholder h start = placeholder := by
  rw [InternalNode.rangeHash.eq_def, hv]

theorem rangeHash_of_only {i : Nibble} {c : Child} (hv : n.rangeView h start = .only i c) :
    n.rangeHash node placeholder h start = c.hash := by
  rw [InternalNode.rangeHash.eq_def, hv]

theorem rangeHash_of_split (hv : n.rangeView (h + 1) start = .split) :
    n.rangeHash node placeholder (h + 1) start =
      node (n.rangeHash node placeholder h start) (n.rangeHash node placeholder h (start + 2 ^ h)) := by
  rw [InternalNode.rangeHash.eq_def, hv]

end RangeHash

/-! ### The bitmaps of a range -/

/-- Bitmaps that mark, on the nibbles from `lo` to below `hi`, the children of
`n` and the leaves among them: what `merkle_hash` reads of its argument. -/
structure BitmapsOn (n : InternalNode) (lo hi : ℕ) (bitmaps : UInt16 × UInt16) : Prop where
  existence : ∀ i : Nibble, lo ≤ i.val → i.val < hi → bitmaps.1.toNat.testBit i = (n.child i).isSome
  leaf : ∀ i : Nibble, lo ≤ i.val → i.val < hi → bitmaps.2.toNat.testBit i = (n.child i).any Child.isLeaf

/-- Bitmaps that mark exactly the children of the range of height `h` from
`start`, and the leaves among them: what `range_bitmaps` returns. -/
structure RangeBits (n : InternalNode) (h start : ℕ) (bitmaps : UInt16 × UInt16) : Prop where
  existence : ∀ i : Nibble, bitmaps.1.toNat.testBit i = true ↔ ∃ c, (i, c) ∈ n.childrenIn h start
  leaf : ∀ i : Nibble, bitmaps.2.toNat.testBit i = true ↔ ∃ c, (i, c) ∈ n.childrenIn h start ∧ c.isLeaf = true

section Bitmaps

variable {n : InternalNode} {h start lo hi : ℕ} {bitmaps : UInt16 × UInt16}

theorem BitmapsOn.mono (hb : BitmapsOn n lo hi bitmaps) {lo' hi' : ℕ} (hlo : lo ≤ lo') (hhi : hi' ≤ hi) :
    BitmapsOn n lo' hi' bitmaps :=
  ⟨fun i h1 h2 => hb.existence i (by omega) (by omega), fun i h1 h2 => hb.leaf i (by omega) (by omega)⟩

/-- `generate_bitmaps` marks every child and every leaf. -/
theorem generateBitmaps_bitmapsOn (n : InternalNode) :
    ∃ bitmaps, n.generateBitmaps = .ok bitmaps ∧ BitmapsOn n 0 16 bitmaps := by
  obtain ⟨e, l, hgen, he, hl⟩ := generateBitmaps_eq n
  exact ⟨(e, l), hgen, ⟨fun i _ _ => by rw [he, any_entries_eq_isSome], fun i _ _ => by rw [hl, any_entries_isLeaf_eq]⟩⟩

/-- The mask `range_bitmaps` builds for an aligned range has the range's bits. -/
theorem testBit_rangeMask (ha : Aligned h start) (j : ℕ) :
    (UInt16.ofNat (((1 <<< 2 ^ h) - 1) <<< start)).toNat.testBit j = decide (start ≤ j ∧ j < start + 2 ^ h) := by
  have hlt : ((1 <<< 2 ^ h) - 1) <<< start < 2 ^ 16 := by
    rw [Nat.one_shiftLeft, Nat.shiftLeft_eq]
    calc (2 ^ 2 ^ h - 1) * 2 ^ start < 2 ^ 2 ^ h * 2 ^ start :=
          Nat.mul_lt_mul_of_pos_right (Nat.sub_lt (Nat.two_pow_pos _) Nat.one_pos) (Nat.two_pow_pos _)
      _ = 2 ^ (start + 2 ^ h) := by rw [← Nat.pow_add, Nat.add_comm]
      _ ≤ 2 ^ 16 := Nat.pow_le_pow_right (by decide) ha.add_le
  rw [UInt16.toNat_ofNat', Nat.mod_eq_of_lt hlt, Nat.testBit_shiftLeft, Nat.one_shiftLeft, Nat.testBit_two_pow_sub_one]
  by_cases hj : start ≤ j
  · simp only [ge_iff_le, hj, decide_true, Bool.true_and, true_and, decide_eq_decide]
    omega
  · simp [hj]

theorem rangeBitmaps_of_aligned (ha : Aligned h start) (bitmaps : UInt16 × UInt16) :
    rangeBitmaps start (2 ^ h) bitmaps = .ok (bitmaps.1 &&& UInt16.ofNat (((1 <<< 2 ^ h) - 1) <<< start),
      bitmaps.2 &&& UInt16.ofNat (((1 <<< 2 ^ h) - 1) <<< start)) := by
  have hpow : 2 ^ h ≤ 16 := (Nat.pow_le_pow_right (by decide) ha.height_le).trans (by decide)
  rw [rangeBitmaps, if_neg (not_not.2 ⟨ha.lt, Nat.countOnes_two_pow h, Nat.mod_eq_zero_of_dvd ha.dvd⟩),
    if_neg (not_not.2 ⟨hpow, ha.add_le⟩)]

/-- **`range_bitmaps` cuts out an aligned range**: from bitmaps that mark the
children of the range, it returns bitmaps that mark exactly them. -/
theorem rangeBitmaps_spec (ha : Aligned h start) (hb : BitmapsOn n start (start + 2 ^ h) bitmaps) :
    ∃ rangeBits, rangeBitmaps start (2 ^ h) bitmaps = .ok rangeBits ∧ RangeBits n h start rangeBits := by
  refine ⟨_, rangeBitmaps_of_aligned ha bitmaps, ⟨fun i => ?_, fun i => ?_⟩⟩
  all_goals
    rw [UInt16.toNat_and, Nat.testBit_and, testBit_rangeMask ha]
    by_cases hr : start ≤ i.val ∧ i.val < start + 2 ^ h
  · rw [hb.existence i hr.1 hr.2, decide_eq_true hr, Bool.and_true, Option.isSome_iff_exists]
    simp only [InternalNode.mem_childrenIn, hr, true_and]
  · -- outside the range: no bit, and no child listed
    rw [decide_eq_false hr, Bool.and_false]
    simp only [Bool.false_eq_true, false_iff, not_exists]
    exact fun c hc => hr ⟨(InternalNode.mem_childrenIn.1 hc).1, (InternalNode.mem_childrenIn.1 hc).2.1⟩
  · rw [hb.leaf i hr.1 hr.2, decide_eq_true hr, Bool.and_true, Option.any_eq_true]
    simp only [InternalNode.mem_childrenIn, hr, true_and]
  · rw [decide_eq_false hr, Bool.and_false]
    simp only [Bool.false_eq_true, false_iff, not_exists]
    exact fun c hc => hr ⟨(InternalNode.mem_childrenIn.1 hc.1).1, (InternalNode.mem_childrenIn.1 hc.1).2.1⟩

theorem RangeBits.bitmapsOn (hr : RangeBits n h start bitmaps) : BitmapsOn n start (start + 2 ^ h) bitmaps := by
  refine ⟨fun i h1 h2 => ?_, fun i h1 h2 => ?_⟩
  · rw [Bool.eq_iff_iff, hr.existence, Option.isSome_iff_exists]
    simp only [InternalNode.mem_childrenIn, h1, h2, true_and]
  · rw [Bool.eq_iff_iff, hr.leaf, Option.any_eq_true]
    simp only [InternalNode.mem_childrenIn, h1, h2, true_and]

theorem RangeBits.eq_zero_iff (hr : RangeBits n h start bitmaps) : bitmaps.1 = 0 ↔ n.childrenIn h start = [] := by
  rw [UInt16.eq_zero_iff_testBit, List.eq_nil_iff_forall_not_mem]
  constructor
  · rintro h0 ⟨i, c⟩ hic
    have hbit := (hr.existence i).2 ⟨c, hic⟩
    rw [h0 i] at hbit
    cases hbit
  · intro hnil i
    cases hbit : bitmaps.1.toNat.testBit i
    · rfl
    · obtain ⟨c, hc⟩ := (hr.existence i).1 hbit
      exact absurd hc (hnil _)

/-- A range holding one child: its bit alone. -/
theorem RangeBits.toNat_eq_of_singleton (hr : RangeBits n h start bitmaps) {i : Nibble} {c : Child}
    (hl : n.childrenIn h start = [(i, c)]) : bitmaps.1.toNat = 2 ^ i.val := by
  refine UInt16.toNat_eq_of_testBit (Nat.pow_lt_pow_right (by decide) i.isLt) fun j => ?_
  rw [Nat.testBit_two_pow, Bool.eq_iff_iff, hr.existence, hl]
  simp [Fin.val_inj, eq_comm]

theorem RangeBits.leaf_ne_zero_iff_of_singleton (hr : RangeBits n h start bitmaps) {i : Nibble} {c : Child}
    (hl : n.childrenIn h start = [(i, c)]) : bitmaps.2 ≠ 0 ↔ c.isLeaf = true := by
  rw [ne_eq, UInt16.eq_zero_iff_testBit]
  constructor
  · intro hne
    by_contra hleaf
    refine hne fun j => ?_
    cases hbit : bitmaps.2.toNat.testBit j
    · rfl
    · obtain ⟨c', hc', hleaf'⟩ := (hr.leaf j).1 hbit
      rw [hl, List.mem_singleton, Prod.mk.injEq] at hc'
      exact absurd (hc'.2 ▸ hleaf') hleaf
  · intro hleaf h0
    have hbit := (hr.leaf i).2 ⟨c, by rw [hl]; exact List.mem_singleton_self _, hleaf⟩
    rw [h0 i] at hbit
    cases hbit

/-! The tests of `merkle_hash` and of the walk, read through the view. -/

theorem RangeBits.of_empty (hr : RangeBits n h start bitmaps) (hv : n.rangeView h start = .empty) : bitmaps.1 = 0 :=
  hr.eq_zero_iff.2 (InternalNode.rangeView_eq_empty_iff.1 hv)

theorem RangeBits.of_only (hr : RangeBits n h start bitmaps) {i : Nibble} {c : Child}
    (hv : n.rangeView h start = .only i c) :
    bitmaps.1 ≠ 0 ∧ (2 ^ h = 1 ∨ (bitmaps.1.countOnes = 1 ∧ bitmaps.2 ≠ 0)) ∧
      bitmaps.1.trailingZeros = i.val ∧ n.child i = some c := by
  obtain ⟨hl, hleaf⟩ := InternalNode.childrenIn_of_rangeView_eq_only hv
  have hbits := hr.toNat_eq_of_singleton hl
  have hne : bitmaps.1 ≠ 0 := fun h0 => by
    rw [hr.eq_zero_iff, hl] at h0
    cases h0
  refine ⟨hne, ?_, ?_, (InternalNode.mem_childrenIn.1 (by rw [hl]; exact List.mem_singleton_self _)).2.2⟩
  · rcases hleaf with rfl | hleaf
    · exact .inl rfl
    · exact .inr ⟨by rw [UInt16.countOnes, hbits, Nat.countOnes_two_pow], (hr.leaf_ne_zero_iff_of_singleton hl).2 hleaf⟩
  · rw [UInt16.trailingZeros_of_ne_zero hne, hbits, Nat.trailingZeros_two_pow]

theorem RangeBits.of_split (hr : RangeBits n h start bitmaps) (hv : n.rangeView h start = .split) :
    bitmaps.1 ≠ 0 ∧ ¬(2 ^ h = 1 ∨ (bitmaps.1.countOnes = 1 ∧ bitmaps.2 ≠ 0)) := by
  have hne : n.childrenIn h start ≠ [] := fun hnil => by
    rw [← InternalNode.rangeView_eq_empty_iff, hv] at hnil
    cases hnil
  refine ⟨fun h0 => hne (hr.eq_zero_iff.1 h0), ?_⟩
  rcases InternalNode.childrenIn_of_rangeView_eq_split hv with ⟨j, d, hl, hh, hleaf⟩ | ⟨a, b, rest, hl⟩
  · -- one child, neither alone on its nibble nor a leaf
    have hpow := Nat.one_lt_two_pow hh
    rintro (hpow' | ⟨-, hleaf'⟩)
    · omega
    · rw [(hr.leaf_ne_zero_iff_of_singleton hl), hleaf] at hleaf'
      cases hleaf'
  · -- two children are two bits, and a count of one is a single bit
    have hh : h ≠ 0 := by
      rintro rfl
      exact InternalNode.childrenIn_zero_ne hl
    have hpow := Nat.one_lt_two_pow hh
    rintro (hpow' | ⟨hone, -⟩)
    · omega
    · have htwo := Nat.eq_two_pow_of_countOnes_eq_one hone
      have hbit : ∀ x ∈ n.childrenIn h start, x.1.val = Nat.trailingZeros bitmaps.1.toNat := by
        intro x hx
        have hx' := (hr.existence x.1).2 ⟨x.2, hx⟩
        rw [htwo, Nat.testBit_two_pow] at hx'
        exact (of_decide_eq_true hx').symm
      exact InternalNode.fst_ne_of_childrenIn_eq hl
        (Fin.ext ((hbit a (by rw [hl]; exact List.mem_cons_self)).trans
          (hbit b (by rw [hl]; exact List.mem_cons_of_mem _ List.mem_cons_self)).symm))

end Bitmaps

/-! ### What `merkle_hash` computes -/

section Hashing

variable (node : HashValue → HashValue → HashValue) (placeholder : HashValue)

/-- **`merkle_hash` computes the range hash**: on an aligned range, from
bitmaps that mark its children, it returns the hash of the range said of the
children. The recursion passes the bitmaps of the range down, and they mark
the children of each half. -/
theorem merkleHash_eq_rangeHash (n : InternalNode) (h : ℕ) : ∀ start bitmaps, Aligned h start →
    BitmapsOn n start (start + 2 ^ h) bitmaps →
    n.merkleHash node placeholder h start bitmaps = .ok (n.rangeHash node placeholder h start) := by
  induction h using Nat.strong_induction_on with
  | _ h ih =>
    intro start bitmaps ha hb
    obtain ⟨⟨e, l⟩, hrange, hbits⟩ := rangeBitmaps_spec ha hb
    rw [InternalNode.merkleHash, hrange, Except.ok_bind]
    dsimp only
    cases hv : n.rangeView h start with
    | empty => rw [if_pos (hbits.of_empty hv), rangeHash_of_empty node placeholder hv]
    | only i c =>
      obtain ⟨hne, htest, htz, hc⟩ := hbits.of_only hv
      rw [if_neg hne, if_pos htest, InternalNode.onlyChildHash, htz, Nibble.fromU8_of_lt i.isLt, Except.ok_bind,
        rangeHash_of_only node placeholder hv]
      simp only [Fin.eta, hc]
    | split =>
      obtain ⟨hne, htest⟩ := hbits.of_split hv
      -- a split range is not a single nibble
      obtain ⟨h', rfl⟩ : ∃ h', h = h' + 1 :=
        Nat.exists_eq_add_one.2 (Nat.pos_of_ne_zero fun h0 => htest (.inl (by rw [h0]; rfl)))
      have hon := hbits.bitmapsOn
      have hpow : start + 2 ^ (h' + 1) = start + 2 ^ h' + 2 ^ h' := by rw [Nat.pow_succ]; omega
      have hpos := Nat.two_pow_pos h'
      rw [if_neg hne, if_neg htest]
      dsimp only
      have hleft : BitmapsOn n start (start + 2 ^ h') (e, l) := hon.mono le_rfl (by omega)
      have hright : BitmapsOn n (start + 2 ^ h') (start + 2 ^ h' + 2 ^ h') (e, l) := hon.mono (by omega) (by omega)
      rw [ih h' (by omega) start (e, l) ha.left hleft, Except.ok_bind,
        ih h' (by omega) (start + 2 ^ h') (e, l) ha.right hright, Except.ok_bind,
        rangeHash_of_split node placeholder hv]

/-- **`InternalNode::hash` is the hash of all sixteen nibbles**, said of the
children. -/
theorem hash_eq_rangeHash (n : InternalNode) : n.hash node placeholder = .ok (n.rangeHash node placeholder 4 0) := by
  obtain ⟨bitmaps, hgen, hb⟩ := generateBitmaps_bitmapsOn n
  rw [InternalNode.hash, hgen, Except.ok_bind]
  exact merkleHash_eq_rangeHash node placeholder n 4 0 bitmaps ⟨le_rfl, dvd_zero _, by decide⟩ hb

end Hashing

/-- **The sixteen nibbles of a node split**: `new_migration` asserts a child,
and that a single child is not a leaf. -/
theorem rangeView_root (n : InternalNode) : n.rangeView 4 0 = .split := by
  have hmem : ∀ i c, (i, c) ∈ n.childrenIn 4 0 ↔ ⟨i, c⟩ ∈ n.children.entries := fun i c => by
    rw [InternalNode.mem_childrenIn, InternalNode.child, ← Option.mem_def, AList.mem_lookup_iff]
    exact ⟨fun h => h.2.2, fun h => ⟨Nat.zero_le _, by simp, h⟩⟩
  unfold InternalNode.rangeView
  split
  · -- no child listed, yet there is an entry
    rename_i hnil
    obtain ⟨⟨i, c⟩, he⟩ := List.exists_mem_of_ne_nil _ n.children_ne_nil
    have hic := (hmem i c).2 he
    rw [hnil] at hic
    cases hic
  · -- one child listed: it is the only entry, so it is not a leaf
    rename_i i c hl
    refine if_neg fun hleaf => ?_
    have hleaf : c.isLeaf = true := hleaf.resolve_left (by decide)
    have hall : ∀ x ∈ n.children.entries, x = ⟨i, c⟩ := by
      intro x hx
      obtain ⟨j, d⟩ := x
      have hjd := (hmem j d).2 hx
      rw [hl, List.mem_singleton, Prod.mk.injEq] at hjd
      rw [hjd.1, hjd.2]
    have hrep := List.eq_replicate_of_mem hall
    have hlen : n.children.entries.length = 1 := by
      have hnd := n.children.nodupKeys.nodup
      rw [hrep, List.nodup_replicate] at hnd
      have hpos := List.length_pos_of_ne_nil n.children_ne_nil
      omega
    rw [hlen, List.replicate_one] at hrep
    have hsingle := Children.isSingleLeaf_iff.2 ⟨i, c, hrep, hleaf⟩
    rw [n.not_isSingleLeaf] at hsingle
    cases hsingle
  · rfl

/-! ### The walk, climbed back -/

/-- Bit `3 - d` of a nibble: the side of its range at depth `d` below the node. -/
def nibbleBit (nibble : Nibble) (d : ℕ) : Bool := nibble.val.testBit (3 - d)

section Climb

variable (node : HashValue → HashValue → HashValue) (placeholder : HashValue)

/-- The hash a proof checker reaches from `start` with the siblings of the
walk toward `nibble`, the highest first: bottom-up, each on the side the bit of
the nibble at its height says. -/
def climbSiblings (nibble : Nibble) (siblings : List HashValue) (start : HashValue) : HashValue :=
  SparseMerkleTree.climb node (siblings.reverse.zip (SparseMerkleTree.pathBits nibbleBit nibble siblings.length)) start

/-- A sibling collected last is climbed first. -/
theorem climbSiblings_append (nibble : Nibble) (siblings : List HashValue) (sibling start : HashValue) :
    climbSiblings node nibble (siblings ++ [sibling]) start =
      climbSiblings node nibble siblings
        (SparseMerkleTree.climbStep node start (sibling, nibbleBit nibble siblings.length)) := by
  rw [climbSiblings, List.reverse_append, List.length_append, List.length_singleton, SparseMerkleTree.pathBits_succ]
  rfl

/-- The hash of a range around a nibble that splits is one climb step from the
half holding the nibble, with the half beside it. -/
theorem rangeHash_split_eq_climbStep (n : InternalNode) (nibble : Nibble) {h : ℕ} (hh : h < 4)
    (hv : n.rangeView (h + 1) (nibble.val / 2 ^ (h + 1) * 2 ^ (h + 1)) = .split) :
    n.rangeHash node placeholder (h + 1) (nibble.val / 2 ^ (h + 1) * 2 ^ (h + 1)) =
      SparseMerkleTree.climbStep node (n.rangeHash node placeholder h (nibble.val / 2 ^ h * 2 ^ h))
        (n.rangeHash node placeholder h ((nibble.val / 2 ^ h ^^^ 1) * 2 ^ h), nibble.val.testBit h) := by
  rw [rangeHash_of_split node placeholder hv, SparseMerkleTree.climbStep]
  obtain ⟨hleft, hright⟩ := halves_eq nibble h hh
  cases hbit : nibble.val.testBit h
  · -- the nibble is in the left half
    obtain ⟨hc, hs⟩ := hleft hbit
    rw [hc, hs]
    rfl
  · obtain ⟨hc, hs⟩ := hright hbit
    rw [hc, hs]
    rfl

/-- What the loop of `get_child_with_siblings` returns where the walk stops:
no key on an empty range, the key of the child it stops at otherwise. -/
def walkResult (nodeKey : NodeType.NodeKey) (stop : Option (Nibble × Child)) (siblings : List HashValue) :
    Except Failure (Option NodeType.NodeKey × List HashValue) :=
  match stop with
  | none => .ok (none, siblings)
  | some (i, child) => do
    let childKey ← nodeKey.genChildNodeKey child.version.toUInt64 i
    .ok (some childKey, siblings)

/-- The view of the range where a walk stops at `stop`. -/
def stopView : Option (Nibble × Child) → RangeView
  | none => .empty
  | some (i, child) => .only i child

/-- The hash a climb starts from where a walk stops at `stop`. -/
def stopHash : Option (Nibble × Child) → HashValue
  | none => placeholder
  | some (_, child) => child.hash

theorem rangeHash_of_stopView {n : InternalNode} {h start : ℕ} {stop : Option (Nibble × Child)}
    (hv : n.rangeView h start = stopView stop) : n.rangeHash node placeholder h start = stopHash placeholder stop := by
  cases stop with
  | none => exact rangeHash_of_empty node placeholder hv
  | some ic => exact rangeHash_of_only node placeholder hv

/-- Where the walk toward `nibble` ended, with the siblings it collected: the
range of height `4 - siblings.length` around the nibble is empty, with no
`stop`, or is the one child `stop`; and the siblings climb from the range's
hash to `root`. -/
structure WalkEnd (n : InternalNode) (nibble : Nibble) (root : HashValue) (stop : Option (Nibble × Child))
    (siblings : List HashValue) : Prop where
  length_pos : 0 < siblings.length
  length_le : siblings.length ≤ 4
  view : n.rangeView (4 - siblings.length) (nibble.val / 2 ^ (4 - siblings.length) * 2 ^ (4 - siblings.length)) =
    stopView stop
  climb : climbSiblings node nibble siblings (stopHash placeholder stop) = root

/-- **The walk from height `h` down.** Below a range around `nibble` that
splits, with siblings above that climb from its hash to `root`, the loop ends
at the first range around the nibble that does not split, with siblings that
climb from that range's hash to `root`. -/
theorem getChildWithSiblingsLoop_spec {n : InternalNode} {bitmaps : UInt16 × UInt16}
    (hb : BitmapsOn n 0 16 bitmaps) (nodeKey : NodeType.NodeKey) (nibble : Nibble) (root : HashValue) (h : ℕ) :
    h < 4 → ∀ siblings : List HashValue, siblings.length = 3 - h →
      n.rangeView (h + 1) (nibble.val / 2 ^ (h + 1) * 2 ^ (h + 1)) = .split →
      climbSiblings node nibble siblings
        (n.rangeHash node placeholder (h + 1) (nibble.val / 2 ^ (h + 1) * 2 ^ (h + 1))) = root →
      ∃ stop siblings', n.getChildWithSiblingsLoop node placeholder nodeKey nibble bitmaps (h + 1) siblings =
        walkResult nodeKey stop siblings' ∧ WalkEnd node placeholder n nibble root stop siblings' := by
  induction h using Nat.strong_induction_on with
  | _ h ih =>
    intro hh siblings hlen hsplit hclimb
    obtain ⟨hC, hS⟩ := halfStart_eq nibble h hh
    have haC : Aligned h (nibble.val / 2 ^ h * 2 ^ h) := Aligned.of_nibble nibble (by omega)
    have haS : Aligned h ((nibble.val / 2 ^ h ^^^ 1) * 2 ^ h) := by
      obtain ⟨hleft, hright⟩ := halves_eq nibble h hh
      have haR : Aligned (h + 1) (nibble.val / 2 ^ (h + 1) * 2 ^ (h + 1)) := Aligned.of_nibble nibble (by omega)
      cases hbit : nibble.val.testBit h
      · rw [(hleft hbit).2]
        exact haR.right
      · rw [(hright hbit).2]
        exact haR.left
    have hsib := merkleHash_eq_rangeHash node placeholder n h _ bitmaps haS (hb.mono (Nat.zero_le _) haS.add_le)
    obtain ⟨⟨e, l⟩, hrange, hbits⟩ := rangeBitmaps_spec haC (hb.mono (Nat.zero_le _) haC.add_le)
    have hclimb' : climbSiblings node nibble
        (siblings ++ [n.rangeHash node placeholder h ((nibble.val / 2 ^ h ^^^ 1) * 2 ^ h)])
        (n.rangeHash node placeholder h (nibble.val / 2 ^ h * 2 ^ h)) = root := by
      rw [climbSiblings_append, hlen, nibbleBit, show 3 - (3 - h) = h by omega,
        ← rangeHash_split_eq_climbStep node placeholder n nibble hh hsplit, hclimb]
    generalize n.rangeHash node placeholder h ((nibble.val / 2 ^ h ^^^ 1) * 2 ^ h) = siblingHash at hsib hclimb'
    have hlen' : 4 - (siblings ++ [siblingHash]).length = h := by
      rw [List.length_append, List.length_singleton, hlen]
      omega
    have hend : ∀ stop, n.rangeView h (nibble.val / 2 ^ h * 2 ^ h) = stopView stop →
        WalkEnd node placeholder n nibble root stop (siblings ++ [siblingHash]) := fun stop hv =>
      ⟨by simp, by simp [hlen]; omega, by rw [hlen', hv],
        by rw [← rangeHash_of_stopView node placeholder hv]; exact hclimb'⟩
    rcases hpair : getChildAndSiblingHalfStart nibble h with ⟨childHalfStart, siblingHalfStart⟩
    rw [hpair] at hC hS
    dsimp only at hC hS
    rw [InternalNode.getChildWithSiblingsLoop, hpair]
    dsimp only
    rw [hS, hsib, Except.ok_bind, hC, hrange, Except.ok_bind]
    dsimp only
    cases hv : n.rangeView h (nibble.val / 2 ^ h * 2 ^ h) with
    | empty =>
      refine ⟨none, siblings ++ [siblingHash], ?_, hend none hv⟩
      rw [if_pos (hbits.of_empty hv)]
      rfl
    | only i c =>
      obtain ⟨hne, htest, htz, hc⟩ := hbits.of_only hv
      refine ⟨some (i, c), siblings ++ [siblingHash], ?_, hend (some (i, c)) hv⟩
      rw [if_neg hne, if_pos htest, htz, Nibble.fromU8_of_lt i.isLt, Except.ok_bind]
      simp only [Fin.eta, hc]
      rfl
    | split =>
      obtain ⟨hne, htest⟩ := hbits.of_split hv
      -- a single nibble does not split, so the walk goes one height down
      obtain ⟨h', rfl⟩ : ∃ h', h = h' + 1 :=
        Nat.exists_eq_add_one.2 (Nat.pos_of_ne_zero fun h0 => htest (.inl (by rw [h0]; rfl)))
      rw [if_neg hne, if_neg htest]
      exact ih h' (by omega) (by omega) _ (by simp [hlen]; omega) hv hclimb'

end Climb

/-! ### The proof of a child -/

section Agreement

variable (node : HashValue → HashValue → HashValue) (placeholder : HashValue)

/-- `get_child_with_siblings` is the walk from the root, whose sixteen nibbles
split, toward the nibble. -/
theorem getChildWithSiblings_eq_walkResult (n : InternalNode) (nodeKey : NodeType.NodeKey) (nibble : Nibble) :
    ∃ stop siblings, n.getChildWithSiblings node placeholder nodeKey nibble = walkResult nodeKey stop siblings ∧
      WalkEnd node placeholder n nibble (n.rangeHash node placeholder 4 0) stop siblings := by
  obtain ⟨bitmaps, hgen, hb⟩ := generateBitmaps_bitmapsOn n
  have hroot : nibble.val / 2 ^ 4 * 2 ^ 4 = 0 := by
    rw [Nat.div_eq_of_lt (by simp)]
    rfl
  obtain ⟨stop, siblings, hloop, hend⟩ := getChildWithSiblingsLoop_spec node placeholder hb nodeKey nibble
    (n.rangeHash node placeholder 4 0) 3 (by decide) [] rfl (by rw [hroot]; exact rangeView_root n) (by rw [hroot]; rfl)
  exact ⟨stop, siblings, by rw [InternalNode.getChildWithSiblings, hgen, Except.ok_bind]; exact hloop, hend⟩

/-- **The siblings of `get_child_with_siblings` prove its child against
`InternalNode::hash`.** For every node, node key and nibble: below the height
the call returns; and whatever it returns, its siblings, one a height from
three down to where the walk stopped, climbed bottom-up along the bits of the
nibble from the hash of the child returned, or from the placeholder when there
is none, give the node's hash. A child returned for another nibble is a leaf,
and the only child of the range around the nibble where the walk stopped. -/
theorem getChildWithSiblings_agrees (n : InternalNode) (nodeKey : NodeType.NodeKey) (nibble : Nibble) :
    (nodeKey.nibblePath.numNibbles < Diem.ROOT_NIBBLE_HEIGHT →
      ∃ result, n.getChildWithSiblings node placeholder nodeKey nibble = .ok result) ∧
    ∀ c siblings, n.getChildWithSiblings node placeholder nodeKey nibble = .ok (c, siblings) →
      ∃ rootHash, n.hash node placeholder = .ok rootHash ∧ 0 < siblings.length ∧ siblings.length ≤ 4 ∧
        ((c = none ∧
            (∀ j : Nibble, j.val / 2 ^ (4 - siblings.length) = nibble.val / 2 ^ (4 - siblings.length) →
              n.child j = none) ∧
            climbSiblings node nibble siblings placeholder = rootHash) ∨
          ∃ i child childKey, n.child i = some child ∧
            nodeKey.genChildNodeKey child.version.toUInt64 i = .ok childKey ∧ c = some childKey ∧
            climbSiblings node nibble siblings child.hash = rootHash ∧
            (i ≠ nibble → child.isLeaf = true ∧
              ∀ j : Nibble, ((n.child j).isSome ∧
                j.val / 2 ^ (4 - siblings.length) = nibble.val / 2 ^ (4 - siblings.length)) ↔ j = i)) := by
  obtain ⟨stop, siblings', hcall, hend⟩ := getChildWithSiblings_eq_walkResult node placeholder n nodeKey nibble
  refine ⟨fun hlt => ?_, fun c siblings hcs => ?_⟩
  · -- only the key of a child can fail, and it does not below the height
    rw [hcall]
    cases stop with
    | none => exact ⟨_, rfl⟩
    | some ic =>
      obtain ⟨childKey, hkey⟩ := (nodeKey.exists_genChildNodeKey_iff _ ic.1).2 hlt
      exact ⟨_, by rw [walkResult, hkey, Except.ok_bind]⟩
  refine ⟨_, hash_eq_rangeHash node placeholder n, ?_⟩
  rw [hcall] at hcs
  cases stop with
  | none =>
    rw [walkResult, Except.ok.injEq, Prod.mk.injEq] at hcs
    obtain ⟨rfl, rfl⟩ := hcs
    have hnil := InternalNode.rangeView_eq_empty_iff.1 hend.view
    refine ⟨hend.length_pos, hend.length_le, .inl ⟨rfl, fun j hj => ?_, hend.climb⟩⟩
    cases hc : n.child j with
    | none => rfl
    | some d =>
      have hmem := InternalNode.mem_childrenIn_around.2 ⟨hj, hc⟩
      rw [hnil] at hmem
      cases hmem
  | some ic =>
    obtain ⟨i, child⟩ := ic
    obtain ⟨childKey, hkey, hok⟩ := Except.bind_eq_ok.1 hcs
    rw [Except.ok.injEq, Prod.mk.injEq] at hok
    obtain ⟨rfl, rfl⟩ := hok
    obtain ⟨hl, hstop⟩ := InternalNode.childrenIn_of_rangeView_eq_only hend.view
    obtain ⟨hi, hchild⟩ := InternalNode.mem_childrenIn_around.1
      (show (i, child) ∈ _ by rw [hl]; exact List.mem_singleton_self _)
    refine ⟨hend.length_pos, hend.length_le, .inr ⟨i, child, childKey, hchild, hkey, rfl, hend.climb, fun hne => ⟨?_, fun j => ?_⟩⟩⟩
    · -- a single nibble is the nibble itself, so the walk stopped at a leaf
      refine hstop.resolve_left fun h0 => hne (Fin.ext ?_)
      rw [h0, Nat.pow_zero, Nat.div_one, Nat.div_one] at hi
      exact hi
    · -- the child listed there is the only one
      constructor
      · rintro ⟨hsome, hj⟩
        obtain ⟨d, hd⟩ := Option.isSome_iff_exists.1 hsome
        have hjd := InternalNode.mem_childrenIn_around.2 ⟨hj, hd⟩
        rw [hl, List.mem_singleton, Prod.mk.injEq] at hjd
        exact hjd.1
      · rintro rfl
        exact ⟨by rw [hchild]; rfl, hi⟩

end Agreement

/-- The key of the root: version zero, no nibble. -/
def rootKey : NodeType.NodeKey := ⟨0, NibblePath.new [] (Nat.zero_le _)⟩

theorem getChildWithSiblings_agrees_twoLeaves :
    ∃ result, twoLeavesNode.getChildWithSiblings (fun a b => ⟨a.val + 2 * b.val⟩) ⟨0⟩ rootKey 2 = .ok result ∧
      ∃ rootHash, twoLeavesNode.hash (fun a b => ⟨a.val + 2 * b.val⟩) ⟨0⟩ = .ok rootHash ∧ 0 < result.2.length := by
  obtain ⟨result, hresult⟩ :=
    (getChildWithSiblings_agrees (fun a b => ⟨a.val + 2 * b.val⟩) ⟨0⟩ twoLeavesNode rootKey 2).1 (by decide)
  obtain ⟨rootHash, hroot, hpos, -⟩ :=
    (getChildWithSiblings_agrees (fun a b => ⟨a.val + 2 * b.val⟩) ⟨0⟩ twoLeavesNode rootKey 2).2 _ _ hresult
  exact ⟨result, hresult, rootHash, hroot, hpos⟩

/- Between leaves at nibbles 3 and 5, nibble 4 has no child: the walk stops at
the range `4..8`, which holds the leaf at 5 alone, with the empty range `8..16`
and the leaf at 3 beside. -/
set_option maxRecDepth 8000 in
example : (InternalNode.mk (((∅ : Children).insert 3 ⟨⟨3⟩, 1, .Leaf⟩).insert 5 ⟨⟨5⟩, 1, .Leaf⟩) true
      (by decide) (by decide)).getChildWithSiblings (fun a b => ⟨a.val + 2 * b.val⟩) ⟨0⟩ rootKey 4 =
    .ok (some ⟨1, ⟨1, [0x50], by decide, rfl, by decide⟩⟩, [⟨0⟩, ⟨3⟩]) := by
  rfl

end Diem.JellyfishMerkle
