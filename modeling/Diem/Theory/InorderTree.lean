import Mathlib.Data.Nat.Size
import Mathlib.Data.Nat.Log
import Mathlib.Tactic.Ring
import Diem.Theory.Bits

/-!
# In-order numbering of a binary tree

The nodes of a binary tree that grows to the right and upwards, numbered in
order: the node of level `l` (leaves at `0`) with `j` nodes of its level to
its left is `inorder l j = 2 ^ (l + 1) * j + 2 ^ l - 1`. Its low `l` bits are
ones, bit `l` is zero and the bits above are those of `j` (`testBit_inorder`).
So its level is its number of trailing ones, and its parent, sibling and
children are reached by setting, clearing or flipping single bits: the lemmas
of the second section, each proved bit by bit.

In post-order a node comes after its two subtrees; `postorder l j` nodes come
before it. The nodes whose subtrees end at leaf `m` are those of the levels
`l ≤ trailingOnes m` above it, and their post-order numbers are
`2 * m - countOnes m + l` (`postorder_shiftRight`): consecutive, and
continuing those of leaf `m - 1` (`postorder_next`).

`Smeared` is the loop that sets every bit below the highest one of a number by
or-ing in shifted copies of it.
-/

namespace InorderTree

open Nat

/-- The in-order number of the node of level `l` with `j` nodes of its level
to its left. -/
def inorder (l j : ℕ) : ℕ := 2 ^ (l + 1) * j + (2 ^ l - 1)

/-- How many nodes a post-order traversal visits before the node of level `l`
with `j` nodes of its level to its left: its two subtrees, and the subtrees to
its left. -/
def postorder (l j : ℕ) : ℕ := 2 ^ (l + 1) * (j + 1) - 2 - countOnes j

theorem two_pow_sub_one_lt (l : ℕ) : 2 ^ l - 1 < 2 ^ (l + 1) := by
  have := Nat.one_le_two_pow (n := l)
  rw [Nat.pow_succ]
  omega

theorem testBit_inorder (l j i : ℕ) :
    (inorder l j).testBit i = if i < l + 1 then decide (i < l) else j.testBit (i - (l + 1)) := by
  rw [inorder, Nat.testBit_two_pow_mul_add _ (two_pow_sub_one_lt l), Nat.testBit_two_pow_sub_one]

theorem testBit_inorder_of_lt {l i : ℕ} (j : ℕ) (hi : i < l) : (inorder l j).testBit i = true := by
  simp [testBit_inorder, hi, Nat.lt_succ_of_lt hi]

theorem testBit_inorder_self (l j : ℕ) : (inorder l j).testBit l = false := by
  simp [testBit_inorder]

theorem testBit_inorder_add (l j k : ℕ) : (inorder l j).testBit (l + 1 + k) = j.testBit k := by
  rw [testBit_inorder, if_neg (by omega), Nat.add_sub_cancel_left]

@[simp] theorem inorder_zero_left (j : ℕ) : inorder 0 j = 2 * j := by simp [inorder]

@[simp] theorem inorder_left_zero (l : ℕ) : inorder l 0 = 2 ^ l - 1 := by simp [inorder]

theorem inorder_succ (l j : ℕ) : inorder (l + 1) j = 2 * inorder l j + 1 := by
  have := Nat.one_le_two_pow (n := l)
  have e : 2 ^ l * 2 - 1 = 2 * (2 ^ l - 1) + 1 := by omega
  simp only [inorder, Nat.pow_succ]
  rw [e]
  ring

theorem trailingOnes_inorder (l j : ℕ) : trailingOnes (inorder l j) = l := by
  induction l with
  | zero => rw [inorder_zero_left, trailingOnes_two_mul]
  | succ l ih => rw [inorder_succ, trailingOnes_two_mul_add_one, ih]

theorem inorder_shiftRight (l j : ℕ) : inorder l j >>> (l + 1) = j := by
  apply Nat.eq_of_testBit_eq
  intro i
  rw [Nat.testBit_shiftRight, testBit_inorder_add]

theorem shiftRight_two_mul_add_one (k l : ℕ) : (2 * k + 1) >>> (l + 1) = k >>> l := by
  rw [Nat.shiftRight_succ_inside, show (2 * k + 1) / 2 = k by omega]

/-- Every number numbers one node: its level is its number of trailing ones. -/
theorem inorder_trailingOnes (n : ℕ) : inorder (trailingOnes n) (n >>> (trailingOnes n + 1)) = n := by
  induction n using Nat.strong_induction_on with
  | _ n ih =>
    obtain ⟨k, rfl | rfl⟩ := Nat.even_or_odd' n
    · rw [trailingOnes_two_mul, inorder_zero_left, Nat.shiftRight_one, Nat.mul_div_cancel_left _ (by omega)]
    · rw [trailingOnes_two_mul_add_one, shiftRight_two_mul_add_one, inorder_succ, ih k (by omega)]

theorem inorder_injective {l j l' j' : ℕ} (h : inorder l j = inorder l' j') : l = l' ∧ j = j' := by
  have hl : l = l' := by rw [← trailingOnes_inorder l j, h, trailingOnes_inorder]
  subst hl
  exact ⟨rfl, by rw [← inorder_shiftRight l j, h, inorder_shiftRight]⟩

/-! ### One bit at a time -/

theorem testBit_two_pow_of_lt {l i : ℕ} (hi : i < l) : (2 ^ l).testBit i = false := by
  rw [Nat.testBit_two_pow]; simp; omega

theorem testBit_two_pow_add (l k : ℕ) : (2 ^ l).testBit (l + 1 + k) = false := by
  rw [Nat.testBit_two_pow]; simp; omega

theorem testBit_two_pow_succ_add (l k : ℕ) : (2 ^ (l + 1)).testBit (l + 1 + k) = decide (k = 0) := by
  rw [Nat.testBit_two_pow]; simp

theorem testBit_one_eq (k : ℕ) : (1 : ℕ).testBit k = decide (k = 0) := by
  rw [← Nat.pow_zero 2, Nat.testBit_two_pow]; simp [eq_comm]

theorem testBit_mod_two_succ (j k : ℕ) : (j % 2).testBit (k + 1) = false := by
  apply Nat.testBit_lt_two_pow
  have := Nat.mod_lt j (show 2 > 0 by omega)
  have : 2 ≤ 2 ^ (k + 1) := Nat.le_self_pow (by omega) _
  omega

/-- The three ranges of bits of a node: the ones below its level, its level, and
the bits of its index. -/
theorem bit_cases (l i : ℕ) : i < l ∨ i = l ∨ ∃ k, i = l + 1 + k := by
  rcases Nat.lt_trichotomy i l with h | h | h
  · exact .inl h
  · exact .inr (.inl h)
  · exact .inr (.inr ⟨i - (l + 1), by omega⟩)

theorem inorder_add_one (l j : ℕ) : inorder l j + 1 = 2 ^ (l + 1) * j + 2 ^ l := by
  have := Nat.one_le_two_pow (n := l)
  simp only [inorder]
  omega

theorem testBit_inorder_add_one (l j i : ℕ) :
    (inorder l j + 1).testBit i = if i < l + 1 then decide (i = l) else j.testBit (i - (l + 1)) := by
  rw [inorder_add_one, Nat.testBit_two_pow_mul_add _ (Nat.pow_lt_pow_right (by omega) (by omega)),
    Nat.testBit_two_pow]
  simp [eq_comm]

/-- `!v & (v + 1)` isolates the lowest zero bit, bit `l`. -/
theorem isolate_inorder (l j : ℕ) :
    (inorder l j + 1) ^^^ ((inorder l j + 1) &&& inorder l j) = 2 ^ l := by
  apply Nat.eq_of_testBit_eq
  intro i
  rw [Nat.testBit_xor, Nat.testBit_and, Nat.testBit_two_pow, testBit_inorder_add_one]
  rcases bit_cases l i with hi | rfl | ⟨k, rfl⟩
  · rw [testBit_inorder_of_lt _ hi, if_pos (by omega)]
    simp; omega
  · rw [testBit_inorder_self]; simp
  · rw [testBit_inorder_add, if_neg (by omega), Nat.add_sub_cancel_left]
    simp; omega

/-- Bit `l + 1` is the parity of the index: whether the node is a right child. -/
theorem inorder_and_two_pow_succ (l j : ℕ) : inorder l j &&& 2 ^ (l + 1) = 2 ^ (l + 1) * (j % 2) := by
  apply Nat.eq_of_testBit_eq
  intro i
  rw [Nat.testBit_and, Nat.testBit_two_pow_mul]
  rcases bit_cases l i with hi | rfl | ⟨k, rfl⟩
  · rw [testBit_inorder_of_lt _ hi, testBit_two_pow_of_lt (by omega)]
    have : ¬ l + 1 ≤ i := by omega
    simp [this]
  · rw [testBit_inorder_self]; simp
  · rw [testBit_inorder_add, testBit_two_pow_succ_add]
    rcases k with _ | k
    · simp [Nat.testBit_zero]
    · simp [testBit_mod_two_succ]

/-- Flipping bit `l + 1` moves to the sibling. -/
theorem inorder_xor_two_pow_succ (l j : ℕ) : inorder l j ^^^ 2 ^ (l + 1) = inorder l (j ^^^ 1) := by
  apply Nat.eq_of_testBit_eq
  intro i
  rcases bit_cases l i with hi | rfl | ⟨k, rfl⟩
  · rw [Nat.testBit_xor, testBit_inorder_of_lt _ hi, testBit_inorder_of_lt _ hi,
      testBit_two_pow_of_lt (by omega)]
    rfl
  · rw [Nat.testBit_xor, testBit_inorder_self, testBit_inorder_self, Nat.testBit_two_pow]; simp
  · rw [Nat.testBit_xor, testBit_inorder_add, testBit_inorder_add, testBit_two_pow_succ_add, Nat.testBit_xor,
      testBit_one_eq]

/-- Setting bit `l` and clearing bit `l + 1` moves to the parent. -/
theorem inorder_parent (l j : ℕ) :
    (inorder l j ||| 2 ^ l) ^^^ ((inorder l j ||| 2 ^ l) &&& 2 ^ (l + 1)) = inorder (l + 1) (j / 2) := by
  apply Nat.eq_of_testBit_eq
  intro i
  rw [Nat.testBit_xor, Nat.testBit_and, Nat.testBit_or]
  rcases bit_cases l i with hi | rfl | ⟨k, rfl⟩
  · rw [testBit_inorder_of_lt _ hi, testBit_inorder_of_lt _ (by omega), testBit_two_pow_of_lt hi,
      testBit_two_pow_of_lt (show i < l + 1 by omega)]
    rfl
  · rw [testBit_inorder_self, testBit_inorder_of_lt _ (by omega), Nat.testBit_two_pow_self,
      testBit_two_pow_of_lt (by omega)]
    rfl
  · rw [testBit_inorder_add, testBit_two_pow_add, testBit_two_pow_succ_add]
    rcases k with _ | k
    · rw [show l + 1 + 0 = l + 1 by rfl, testBit_inorder_self]; simp
    · rw [show l + 1 + (k + 1) = l + 1 + 1 + k by omega, testBit_inorder_add, Nat.testBit_succ]
      simp

/-- From level `k + 1`, clearing bit `k` moves to the left child, and setting bit
`k + 1` first to the right one. -/
theorem inorder_leftChild (k j : ℕ) :
    inorder (k + 1) j ^^^ (inorder (k + 1) j &&& 2 ^ k) = inorder k (2 * j) := by
  apply Nat.eq_of_testBit_eq
  intro i
  rw [Nat.testBit_xor, Nat.testBit_and]
  rcases bit_cases k i with hi | rfl | ⟨m, rfl⟩
  · rw [testBit_inorder_of_lt _ hi, testBit_inorder_of_lt _ (by omega), testBit_two_pow_of_lt hi]
    rfl
  · rw [testBit_inorder_of_lt _ (by omega), testBit_inorder_self, Nat.testBit_two_pow_self]
    rfl
  · rw [testBit_two_pow_add, testBit_inorder_add]
    rcases m with _ | m
    · rw [show k + 1 + 0 = k + 1 by rfl, testBit_inorder_self]; simp [Nat.testBit_zero]
    · rw [show k + 1 + (m + 1) = k + 1 + 1 + m by omega, testBit_inorder_add, Nat.testBit_succ,
        Nat.mul_div_cancel_left _ (by omega)]
      simp

theorem inorder_rightChild (k j : ℕ) :
    (inorder (k + 1) j ||| 2 ^ (k + 1)) ^^^ ((inorder (k + 1) j ||| 2 ^ (k + 1)) &&& 2 ^ k) =
      inorder k (2 * j + 1) := by
  apply Nat.eq_of_testBit_eq
  intro i
  rw [Nat.testBit_xor, Nat.testBit_and, Nat.testBit_or]
  rcases bit_cases k i with hi | rfl | ⟨m, rfl⟩
  · rw [testBit_inorder_of_lt _ hi, testBit_inorder_of_lt _ (by omega), testBit_two_pow_of_lt hi,
      testBit_two_pow_of_lt (by omega)]
    rfl
  · rw [testBit_inorder_of_lt _ (by omega), testBit_inorder_self, Nat.testBit_two_pow_self]
    rfl
  · rw [testBit_two_pow_add, testBit_inorder_add]
    rcases m with _ | m
    · rw [show k + 1 + 0 = k + 1 by rfl, testBit_inorder_self, Nat.testBit_two_pow_self]
      simp [Nat.testBit_zero]
    · rw [show k + 1 + (m + 1) = k + 1 + 1 + m by omega, testBit_inorder_add, testBit_two_pow_add,
        Nat.testBit_succ, show (2 * j + 1) / 2 = j by omega]
      simp

/-- Clearing the ones below bit `l` leaves the bits of the index. -/
theorem inorder_xor_two_pow_sub_one (l j : ℕ) : inorder l j ^^^ (2 ^ l - 1) = 2 ^ (l + 1) * j := by
  apply Nat.eq_of_testBit_eq
  intro i
  rw [Nat.testBit_xor, Nat.testBit_two_pow_sub_one, Nat.testBit_two_pow_mul]
  rcases bit_cases l i with hi | rfl | ⟨k, rfl⟩
  · rw [testBit_inorder_of_lt _ hi]
    have : ¬ l + 1 ≤ i := by omega
    simp [hi, this]
  · rw [testBit_inorder_self]; simp
  · rw [testBit_inorder_add]
    have : ¬ l + 1 + k < l := by omega
    simp [this]

/-- Turning off the low `l` bits gives the leftmost leaf below the node. -/
theorem shiftLeft_shiftRight_inorder (l j : ℕ) : (inorder l j >>> l) <<< l = 2 ^ (l + 1) * j := by
  apply Nat.eq_of_testBit_eq
  intro i
  rw [Nat.testBit_shiftLeft, Nat.testBit_shiftRight, Nat.testBit_two_pow_mul]
  rcases bit_cases l i with hi | rfl | ⟨k, rfl⟩
  · have : ¬ l + 1 ≤ i := by omega
    simp [hi, this]
  · rw [Nat.sub_self, Nat.add_zero, testBit_inorder_self]; simp
  · rw [show l + (l + 1 + k - l) = l + 1 + k by omega, testBit_inorder_add]
    have : l ≤ l + 1 + k := by omega
    simp [this]

/-! ### Post-order -/

theorem countOnes_le (n : ℕ) : countOnes n ≤ n := by
  induction n using Nat.strong_induction_on with
  | _ n ih =>
    obtain ⟨k, rfl | rfl⟩ := Nat.even_or_odd' n
    · rw [countOnes_two_mul]
      have := ih k
      rcases Nat.eq_zero_or_pos k with rfl | hk
      · simp
      · have := this (by omega)
        omega
    · have := ih k (by omega)
      rw [countOnes_two_mul_add_one]
      omega

/-- Below its trailing ones a number is its high part followed by ones. -/
theorem shiftRight_succ_mul_two_pow {m l : ℕ} (hl : l ≤ trailingOnes m) :
    (m >>> l + 1) * 2 ^ l = m + 1 ∧ countOnes (m >>> l) + l = countOnes m := by
  induction l generalizing m with
  | zero => simp
  | succ l ih =>
    obtain ⟨k, rfl | rfl⟩ := Nat.even_or_odd' m
    · rw [trailingOnes_two_mul] at hl
      omega
    · rw [trailingOnes_two_mul_add_one] at hl
      obtain ⟨h1, h2⟩ := ih (m := k) (by omega)
      rw [shiftRight_two_mul_add_one, countOnes_two_mul_add_one, Nat.pow_succ]
      constructor
      · rw [← Nat.mul_assoc, h1]
        ring
      · omega

/-- **Leaf `m` closes the subtrees of its trailing ones**, and their post-order
numbers follow one another from `2 * m - countOnes m`. -/
theorem postorder_shiftRight {m l : ℕ} (hl : l ≤ trailingOnes m) :
    postorder l (m >>> l) = 2 * m - countOnes m + l := by
  obtain ⟨h1, h2⟩ := shiftRight_succ_mul_two_pow hl
  have hle := countOnes_le m
  have hpow : 2 ^ (l + 1) * (m >>> l + 1) = 2 * (m + 1) := by
    rw [Nat.pow_succ, ← h1]
    ring
  rw [postorder, hpow]
  omega

theorem testBit_of_lt_trailingOnes {m l : ℕ} (hl : l < trailingOnes m) : m.testBit l = true := by
  have h := testBit_inorder_of_lt (m >>> (trailingOnes m + 1)) hl
  rwa [inorder_trailingOnes] at h

theorem testBit_trailingOnes (m : ℕ) : m.testBit (trailingOnes m) = false := by
  have h := testBit_inorder_self (trailingOnes m) (m >>> (trailingOnes m + 1))
  rwa [inorder_trailingOnes] at h

/-- Below the trailing ones of `m`, the node above leaf `m` is a right child. -/
theorem shiftRight_of_lt_trailingOnes {m l : ℕ} (hl : l < trailingOnes m) :
    m >>> l = 2 * (m >>> (l + 1)) + 1 := by
  have h := testBit_of_lt_trailingOnes hl
  rw [← Nat.decide_shiftRight_mod_two_eq_one, decide_eq_true_eq] at h
  rw [Nat.shiftRight_succ]
  omega

/-- At the trailing ones of `m`, it is a left child. -/
theorem shiftRight_trailingOnes_mod_two (m : ℕ) : m >>> trailingOnes m % 2 = 0 := by
  have h := testBit_trailingOnes m
  rw [← Nat.decide_shiftRight_mod_two_eq_one, decide_eq_false_iff_not] at h
  omega

/-- The post-order numbers leaf `m + 1` closes continue those of leaf `m`. -/
theorem postorder_next (m : ℕ) :
    2 * m - countOnes m + trailingOnes m + 1 = 2 * (m + 1) - countOnes (m + 1) := by
  have h := countOnes_succ_add_trailingOnes m
  have := countOnes_le m
  have := countOnes_le (m + 1)
  omega

/-- The rightmost leaf below the node of level `h` and index `i`. -/
theorem trailingOnes_of_succ_mul_two_pow (h i : ℕ) :
    h ≤ trailingOnes ((i + 1) * 2 ^ h - 1) ∧ ((i + 1) * 2 ^ h - 1) >>> h = i := by
  induction h with
  | zero => simp
  | succ h ih =>
    have hpos : 1 ≤ (i + 1) * 2 ^ h :=
      Nat.one_le_iff_ne_zero.mpr (Nat.mul_ne_zero (by omega) (Nat.two_pow_pos h).ne')
    have heq : (i + 1) * 2 ^ (h + 1) - 1 = 2 * ((i + 1) * 2 ^ h - 1) + 1 := by
      rw [Nat.pow_succ, ← Nat.mul_assoc]
      omega
    rw [heq, trailingOnes_two_mul_add_one, shiftRight_two_mul_add_one]
    exact ⟨by omega, ih.2⟩

/-- The post-order numbers the first leaves close grow with the leaves. -/
theorem postorderStart_le (n k : ℕ) : 2 * n - countOnes n ≤ 2 * (n + k) - countOnes (n + k) := by
  induction k with
  | zero => rfl
  | succ k ih =>
    have := postorder_next (n + k)
    rw [← Nat.add_assoc]
    omega

/-! ### Sizes -/

/-- A positive number lies between the powers of two below and at its bit length. -/
theorem two_pow_size_pred_le {r : ℕ} (hr : 0 < r) : 2 ^ (r.size - 1) ≤ r ∧ r < 2 ^ (r.size - 1 + 1) := by
  have hsize := Nat.size_pos.2 hr
  refine ⟨Nat.lt_size.1 (by omega), ?_⟩
  rw [Nat.sub_add_cancel hsize]
  exact Nat.lt_size_self r

/-- The height of the least tree over `n` leaves is the bit length of `n - 1`. -/
theorem size_pred_eq_clog (n : ℕ) (hn : 0 < n) : (n - 1).size = Nat.clog 2 n := by
  apply le_antisymm
  · rw [Nat.size_le]
    have := Nat.le_pow_clog (by omega : 1 < 2) n
    omega
  · rw [Nat.clog_le_iff_le_pow (by omega)]
    have := Nat.lt_size_self (n - 1)
    omega

/-- `y` has bit `i` set when one of bits `i` to `i + d - 1` of `v` is. -/
def Smeared (v d y : ℕ) : Prop := ∀ i, y.testBit i = true ↔ ∃ s < d, v.testBit (i + s) = true

theorem smeared_one (v : ℕ) : Smeared v 1 v := by
  intro i
  constructor
  · intro h
    exact ⟨0, by omega, h⟩
  · rintro ⟨s, hs, h⟩
    obtain rfl : s = 0 := by omega
    exact h

/-- One round of `n |= n >> d` doubles the window. -/
theorem Smeared.or_shiftRight {v d y : ℕ} (h : Smeared v d y) : Smeared v (2 * d) (y ||| y >>> d) := by
  intro i
  rw [Nat.testBit_or, Nat.testBit_shiftRight, Bool.or_eq_true, h i, h (d + i)]
  constructor
  · rintro (⟨s, hs, hb⟩ | ⟨s, hs, hb⟩)
    · exact ⟨s, by omega, hb⟩
    · exact ⟨d + s, by omega, by rwa [show i + (d + s) = d + i + s by omega]⟩
  · rintro ⟨s, hs, hb⟩
    by_cases hsd : s < d
    · exact .inl ⟨s, hsd, hb⟩
    · exact .inr ⟨s - d, by omega, by rwa [show d + i + (s - d) = i + s by omega]⟩

/-- A window as wide as the number sets every bit below its highest one. -/
theorem Smeared.eq_two_pow_size_sub_one {v d y : ℕ} (h : Smeared v d y) (hv : v.size ≤ d) :
    y = 2 ^ v.size - 1 := by
  apply Nat.eq_of_testBit_eq
  intro i
  rw [Nat.testBit_two_pow_sub_one, Bool.eq_iff_iff, h i, decide_eq_true_iff]
  constructor
  · rintro ⟨s, -, hb⟩
    by_contra hi
    have hlt : v < 2 ^ (i + s) :=
      lt_of_lt_of_le (Nat.lt_size_self v) (Nat.pow_le_pow_right (by omega) (by omega))
    rw [Nat.testBit_lt_two_pow hlt] at hb
    cases hb
  · intro hi
    have hpos : 0 < v.size := by omega
    have hle : 2 ^ (v.size - 1) ≤ v := Nat.lt_size.mp (by omega)
    have hlt : v < 2 ^ (v.size - 1 + 1) := by rw [Nat.sub_add_cancel hpos]; exact Nat.lt_size_self v
    exact ⟨v.size - 1 - i, by omega, by
      rw [show i + (v.size - 1 - i) = v.size - 1 by omega]
      exact Nat.testBit_of_two_pow_le_and_two_pow_add_one_gt hle hlt⟩

/-- The node above the last of `n` leaves at its trailing ones is no higher
than the root. -/
theorem trailingOnes_pred_le_clog {n : ℕ} (hn : 0 < n) : trailingOnes (n - 1) ≤ Nat.clog 2 n := by
  have h := (shiftRight_succ_mul_two_pow (le_refl (trailingOnes (n - 1)))).1
  have hpow : 2 ^ trailingOnes (n - 1) ≤ 2 ^ Nat.clog 2 n :=
    calc 2 ^ trailingOnes (n - 1) ≤ ((n - 1) >>> trailingOnes (n - 1) + 1) * 2 ^ trailingOnes (n - 1) :=
          Nat.le_mul_of_pos_left _ (Nat.succ_pos _)
      _ = n := by rw [h]; omega
      _ ≤ 2 ^ Nat.clog 2 n := Nat.le_pow_clog (by decide) n
  exact (Nat.pow_le_pow_iff_right (by decide)).1 hpow

/-- At the root's level the last leaf is in the first node. -/
theorem shiftRight_clog_eq_zero {n : ℕ} (hn : 0 < n) : (n - 1) >>> Nat.clog 2 n = 0 := by
  have := Nat.le_pow_clog (by decide : 1 < 2) n
  rw [Nat.shiftRight_eq_div_pow, Nat.div_eq_of_lt (by omega)]

end InorderTree
