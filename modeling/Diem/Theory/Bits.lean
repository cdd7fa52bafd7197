import Mathlib.Data.Nat.Bits
import Mathlib.Data.List.Count
import Mathlib.Algebra.Ring.Parity

/-!
# Counting bits

`count_ones`, `trailing_zeros` and the number of trailing ones (written
`(!n).trailing_zeros()` in Rust) of an unsigned count, read off its binary
digits `Nat.bits`, lowest first. A Merkle accumulator of `n` leaves keeps one
frozen subtree per one bit of `n`, and appending a leaf to it merges as many
subtrees as `n` has trailing ones: `countOnes_succ_add_trailingOnes` is the
arithmetic behind that. A bitmap is read one child at a time by clearing its
lowest one bit, which takes one from its count of ones
(`countOnes_and_clear_trailingZeros`).
-/

namespace Nat

/-- `count_ones`. -/
def countOnes (n : ℕ) : ℕ := n.bits.count true

/-- `trailing_zeros`, for a non-zero `n`. -/
def trailingZeros (n : ℕ) : ℕ := (n.bits.takeWhile (! ·)).length

/-- The number of trailing ones, `(!n).trailing_zeros()`. -/
def trailingOnes (n : ℕ) : ℕ := (n.bits.takeWhile id).length

@[simp] theorem countOnes_zero : countOnes 0 = 0 := by simp [countOnes]

@[simp] theorem trailingOnes_zero : trailingOnes 0 = 0 := by simp [trailingOnes]

theorem countOnes_two_mul (n : ℕ) : countOnes (2 * n) = countOnes n := by
  rcases Nat.eq_zero_or_pos n with rfl | hn
  · rfl
  · simp [countOnes, bit0_bits n (by omega)]

theorem countOnes_two_mul_add_one (n : ℕ) : countOnes (2 * n + 1) = countOnes n + 1 := by
  simp [countOnes, bit1_bits]

theorem trailingOnes_two_mul (n : ℕ) : trailingOnes (2 * n) = 0 := by
  rcases Nat.eq_zero_or_pos n with rfl | hn
  · rfl
  · simp [trailingOnes, bit0_bits n (by omega)]

theorem trailingOnes_two_mul_add_one (n : ℕ) : trailingOnes (2 * n + 1) = trailingOnes n + 1 := by
  simp [trailingOnes, bit1_bits]

theorem countOnes_pos {n : ℕ} (hn : 0 < n) : 0 < countOnes n := by
  induction n using Nat.strong_induction_on with
  | _ n ih =>
    obtain ⟨k, rfl | rfl⟩ := Nat.even_or_odd' n
    · rw [countOnes_two_mul]
      exact ih k (by omega) (by omega)
    · rw [countOnes_two_mul_add_one]
      omega

theorem trailingZeros_two_mul_add_one (n : ℕ) : trailingZeros (2 * n + 1) = 0 := by
  simp [trailingZeros, bit1_bits]

theorem trailingZeros_two_mul {n : ℕ} (hn : 0 < n) : trailingZeros (2 * n) = trailingZeros n + 1 := by
  simp [trailingZeros, bit0_bits n (by omega)]

theorem trailingZeros_two_pow_mul (t : ℕ) {m : ℕ} (hm : 0 < m) : trailingZeros (2 ^ t * m) = t + trailingZeros m := by
  induction t with
  | zero => simp
  | succ t ih =>
    rw [Nat.pow_succ, Nat.mul_comm (2 ^ t) 2, Nat.mul_assoc, trailingZeros_two_mul (Nat.mul_pos (Nat.two_pow_pos t) hm), ih]
    omega

theorem trailingZeros_two_pow_mul_odd (l y : ℕ) : trailingZeros (2 ^ l * (2 * y + 1)) = l := by
  rw [trailingZeros_two_pow_mul l (by omega), trailingZeros_two_mul_add_one, Nat.add_zero]

/-- A positive count is a power of two, its trailing zeros, times an odd number. -/
theorem exists_eq_two_pow_trailingZeros_mul {c : ℕ} (hc : 0 < c) : ∃ y, c = 2 ^ trailingZeros c * (2 * y + 1) := by
  induction c using Nat.strong_induction_on with
  | _ c ih =>
    obtain ⟨k, rfl | rfl⟩ := Nat.even_or_odd' c
    · obtain ⟨y, hy⟩ := ih k (by omega) (by omega)
      refine ⟨y, ?_⟩
      rw [trailingZeros_two_mul (by omega), Nat.pow_succ, Nat.mul_comm (2 ^ _) 2, Nat.mul_assoc, ← hy]
    · exact ⟨k, by rw [trailingZeros_two_mul_add_one, Nat.pow_zero, Nat.one_mul]⟩

/-- Adding one turns the trailing ones into trailing zeros. -/
theorem trailingZeros_succ (n : ℕ) : trailingZeros (n + 1) = trailingOnes n := by
  induction n using Nat.strong_induction_on with
  | _ n ih =>
    obtain ⟨k, rfl | rfl⟩ := Nat.even_or_odd' n
    · rw [trailingZeros_two_mul_add_one, trailingOnes_two_mul]
    · rw [show 2 * k + 1 + 1 = 2 * (k + 1) by omega, trailingZeros_two_mul (by omega), ih k (by omega),
        trailingOnes_two_mul_add_one]

theorem two_pow_trailingOnes_le (n : ℕ) : 2 ^ trailingOnes n ≤ n + 1 := by
  induction n using Nat.strong_induction_on with
  | _ n ih =>
    obtain ⟨k, rfl | rfl⟩ := Nat.even_or_odd' n
    · rw [trailingOnes_two_mul]
      omega
    · rw [trailingOnes_two_mul_add_one, Nat.pow_succ]
      have := ih k (by omega)
      omega

theorem shiftRight_mul_two_pow_le (m l : ℕ) : (m >>> l) * 2 ^ l ≤ m := by
  rw [Nat.shiftRight_eq_div_pow]
  exact Nat.div_mul_le_self m _

/-- Every node of height `l` at or before the ancestor of `b` starts before `n`, if `b` does. -/
theorem mul_two_pow_lt_of_le_shiftRight {j b l n : ℕ} (hj : j ≤ b >>> l) (hb : b < n) : j * 2 ^ l < n :=
  lt_of_le_of_lt (le_trans (Nat.mul_le_mul_right _ hj) (shiftRight_mul_two_pow_le b l)) hb

theorem lt_shiftRight_add_one_mul (m l : ℕ) : m < (m >>> l + 1) * 2 ^ l := by
  rw [Nat.shiftRight_eq_div_pow, Nat.add_mul, Nat.one_mul]
  exact Nat.lt_div_mul_add (Nat.two_pow_pos l)

/-- Adding one clears the trailing ones and sets the bit above them. -/
theorem countOnes_succ_add_trailingOnes (n : ℕ) : countOnes (n + 1) + trailingOnes n = countOnes n + 1 := by
  induction n using Nat.strong_induction_on with
  | _ n ih =>
    obtain ⟨k, rfl | rfl⟩ := Nat.even_or_odd' n
    · -- an even count: no trailing ones, the new bit is the lowest
      rw [countOnes_two_mul_add_one, countOnes_two_mul, trailingOnes_two_mul]
    · -- an odd count: the carry moves into the half
      have hk : k < 2 * k + 1 := by omega
      have h := ih k hk
      have hsucc : 2 * k + 1 + 1 = 2 * (k + 1) := by omega
      rw [hsucc, countOnes_two_mul, trailingOnes_two_mul_add_one, countOnes_two_mul_add_one]
      omega

theorem trailingOnes_le_countOnes (n : ℕ) : trailingOnes n ≤ countOnes n := by
  unfold trailingOnes countOnes
  induction n.bits with
  | nil => simp
  | cons b l ih =>
    cases b
    · simp
    · simpa using ih

theorem bits_shiftRight (n k : ℕ) : (n >>> k).bits = n.bits.drop k := by
  induction k with
  | zero => rfl
  | succ k ih =>
    rw [Nat.shiftRight_succ, ← Nat.div2_val, div2_bits_eq_tail, ih, List.tail_drop]

/-- Dropping leading zeros keeps every one. -/
theorem count_true_drop_takeWhile_not (l : List Bool) :
    (l.drop (l.takeWhile (! ·)).length).count true = l.count true := by
  induction l with
  | nil => rfl
  | cons b l ih =>
    cases b
    · simpa using ih
    · simp

/-- Shifting out the trailing zeros keeps every one bit. -/
theorem countOnes_shiftRight_trailingZeros (n : ℕ) : countOnes (n >>> trailingZeros n) = countOnes n := by
  unfold countOnes trailingZeros
  rw [bits_shiftRight, count_true_drop_takeWhile_not]

/-! ## Clearing the lowest one bit

A bitmap of width `w` is scanned by reading its `trailing_zeros` `t` and
clearing that bit with the mask `!(1 << t)`, the number `2 ^ w - (2 ^ t + 1)`. -/

theorem countOnes_two_pow_mul (t m : ℕ) : countOnes (2 ^ t * m) = countOnes m := by
  induction t with
  | zero => simp
  | succ t ih => rw [Nat.pow_succ, Nat.mul_comm (2 ^ t) 2, Nat.mul_assoc, countOnes_two_mul, ih]

theorem countOnes_eq_zero_iff {n : ℕ} : countOnes n = 0 ↔ n = 0 := by
  constructor
  · intro h
    by_contra hn
    have := countOnes_pos (Nat.pos_of_ne_zero hn)
    omega
  · rintro rfl
    rfl

/-- A count with a single one bit is the power of two of its trailing zeros. -/
theorem eq_two_pow_of_countOnes_eq_one {n : ℕ} (h : countOnes n = 1) : n = 2 ^ trailingZeros n := by
  have hn : 0 < n := by
    rcases Nat.eq_zero_or_pos n with rfl | hn
    · simp at h
    · exact hn
  obtain ⟨y, hy⟩ := exists_eq_two_pow_trailingZeros_mul hn
  have hcount : countOnes y = 0 := by
    rw [hy, countOnes_two_pow_mul, countOnes_two_mul_add_one] at h
    omega
  rw [countOnes_eq_zero_iff] at hcount
  rw [hcount] at hy
  simpa using hy

theorem countOnes_two_pow (t : ℕ) : countOnes (2 ^ t) = 1 := by
  have h := countOnes_two_pow_mul t 1
  rw [Nat.mul_one] at h
  rw [h]
  rfl

theorem trailingZeros_two_pow (t : ℕ) : trailingZeros (2 ^ t) = t := by
  simpa using trailingZeros_two_pow_mul_odd t 0

theorem testBit_trailingZeros {n : ℕ} (hn : 0 < n) : n.testBit (trailingZeros n) = true := by
  obtain ⟨y, hy⟩ := exists_eq_two_pow_trailingZeros_mul hn
  generalize trailingZeros n = t at hy ⊢
  subst hy
  simp [Nat.testBit_two_pow_mul]

theorem trailingZeros_lt {n w : ℕ} (hn : 0 < n) (hw : n < 2 ^ w) : trailingZeros n < w := by
  have hle : 2 ^ trailingZeros n ≤ n := Nat.ge_two_pow_of_testBit (testBit_trailingZeros hn)
  exact (Nat.pow_lt_pow_iff_right (by decide)).mp (lt_of_le_of_lt hle hw)

theorem testBit_and_clear {n w t : ℕ} (ht : t < w) (i : ℕ) :
    (n &&& (2 ^ w - (2 ^ t + 1))).testBit i = (n.testBit i && decide (i < w) && decide (t ≠ i)) := by
  have hlt : 2 ^ t < 2 ^ w := Nat.pow_lt_pow_right (by decide) ht
  rw [Nat.testBit_and, Nat.testBit_two_pow_sub_succ hlt, Nat.testBit_two_pow]
  cases n.testBit i <;> by_cases h : t = i <;> simp [h]

/-- Clearing the lowest one bit of `2 ^ t * (2 * y + 1)` leaves `2 ^ (t + 1) * y`. -/
theorem and_clear_trailingZeros {n w : ℕ} (hn : 0 < n) (hw : n < 2 ^ w) :
    ∃ y, n = 2 ^ trailingZeros n * (2 * y + 1) ∧
      n &&& (2 ^ w - (2 ^ trailingZeros n + 1)) = 2 ^ (trailingZeros n + 1) * y := by
  obtain ⟨y, hy⟩ := exists_eq_two_pow_trailingZeros_mul hn
  refine ⟨y, hy, Nat.eq_of_testBit_eq fun i => ?_⟩
  rw [testBit_and_clear (trailingZeros_lt hn hw)]
  set t := trailingZeros n
  rw [hy, Nat.testBit_two_pow_mul, Nat.testBit_two_pow_mul]
  rcases Nat.lt_trichotomy i t with hi | rfl | hi
  · simp [hi, show ¬ t + 1 ≤ i by omega]
  · simp
  · obtain ⟨k, rfl⟩ : ∃ k, i = t + 1 + k := ⟨i - (t + 1), by omega⟩
    have hsucc : t + 1 + k - t = k + 1 := by omega
    rw [hsucc, Nat.testBit_add_one, show (2 * y + 1) / 2 = y by omega]
    by_cases hw' : t + 1 + k < w
    · simp [hw', show t ≠ t + 1 + k by omega, show t ≤ t + 1 + k by omega]
    · -- above the width both sides are zero, since `n < 2 ^ w`
      have hle : 2 ^ (t + 1) * y ≤ n := by
        rw [hy, Nat.pow_succ, Nat.mul_assoc]
        exact Nat.mul_le_mul_left _ (by omega)
      have hbig : 2 ^ (t + 1) * y < 2 ^ (t + 1 + k) :=
        lt_of_le_of_lt hle (lt_of_lt_of_le hw (Nat.pow_le_pow_right (by decide) (by omega)))
      have hk : y.testBit k = false := by
        have := Nat.testBit_lt_two_pow hbig
        rwa [Nat.testBit_two_pow_mul, show t + 1 + k - (t + 1) = k by omega, decide_eq_true (by omega),
          Bool.true_and] at this
      simp [hw', hk]

/-- Clearing the lowest one bit takes one from the count of ones. -/
theorem countOnes_and_clear_trailingZeros {n w : ℕ} (hn : 0 < n) (hw : n < 2 ^ w) :
    countOnes (n &&& (2 ^ w - (2 ^ trailingZeros n + 1))) + 1 = countOnes n := by
  obtain ⟨y, hy, hclear⟩ := and_clear_trailingZeros hn hw
  conv_rhs => rw [hy]
  rw [hclear, countOnes_two_pow_mul, countOnes_two_pow_mul, countOnes_two_mul_add_one]

/-- A number whose ones all lie at bit `t`, and which has that bit, is `2 ^ t`. -/
theorem eq_two_pow_of_and_two_pow {n t : ℕ} (h : n &&& 2 ^ t = n) (ht : n.testBit t = true) : n = 2 ^ t := by
  apply Nat.eq_of_testBit_eq
  intro i
  rw [Nat.testBit_two_pow]
  by_cases hi : t = i
  · subst hi
    simpa using ht
  · have := congrArg (Nat.testBit · i) h
    simp only [Nat.testBit_and, Nat.testBit_two_pow, hi, decide_false, Bool.and_false] at this
    simp [hi, ← this]

/-! ## Ones below a power of two -/

/-- The ones of a number below `2 ^ k` and those of a multiple of `2 ^ k` do
not meet. -/
theorem countOnes_add_two_pow_mul {a k : ℕ} (c : ℕ) (ha : a < 2 ^ k) :
    countOnes (a + 2 ^ k * c) = countOnes a + countOnes c := by
  induction k generalizing a with
  | zero =>
    obtain rfl : a = 0 := by simpa using ha
    simp
  | succ k ih =>
    have ha' : a / 2 < 2 ^ k := by rw [Nat.pow_succ] at ha; omega
    obtain ⟨a', rfl | rfl⟩ := Nat.even_or_odd' a
    · have hhalf : 2 * a' / 2 = a' := by omega
      rw [hhalf] at ha'
      have hsplit : 2 * a' + 2 ^ (k + 1) * c = 2 * (a' + 2 ^ k * c) := by
        rw [Nat.mul_add, Nat.pow_succ, Nat.mul_comm (2 ^ k) 2, Nat.mul_assoc]
      rw [hsplit, countOnes_two_mul, countOnes_two_mul, ih ha']
    · have hhalf : (2 * a' + 1) / 2 = a' := by omega
      rw [hhalf] at ha'
      have hsplit : 2 * a' + 1 + 2 ^ (k + 1) * c = 2 * (a' + 2 ^ k * c) + 1 := by
        rw [Nat.mul_add, Nat.pow_succ, Nat.mul_comm (2 ^ k) 2, Nat.mul_assoc]
        omega
      rw [hsplit, countOnes_two_mul_add_one, countOnes_two_mul_add_one, ih ha']
      omega

/-- A number below `2 ^ k` has at most `k` ones. -/
theorem countOnes_le_of_lt_two_pow {n k : ℕ} (h : n < 2 ^ k) : countOnes n ≤ k := by
  induction k generalizing n with
  | zero =>
    obtain rfl : n = 0 := by simpa using h
    simp
  | succ k ih =>
    obtain ⟨n', rfl | rfl⟩ := Nat.even_or_odd' n
    · rw [countOnes_two_mul]
      have := ih (n := n') (by rw [Nat.pow_succ] at h; omega)
      omega
    · rw [countOnes_two_mul_add_one]
      have := ih (n := n') (by rw [Nat.pow_succ] at h; omega)
      omega

@[simp] theorem countOnes_two_pow_sub_one (l : ℕ) : countOnes (2 ^ l - 1) = l := by
  induction l with
  | zero => simp
  | succ l ih =>
    have := Nat.one_le_two_pow (n := l)
    rw [show 2 ^ (l + 1) - 1 = 2 * (2 ^ l - 1) + 1 by rw [Nat.pow_succ]; omega, countOnes_two_mul_add_one, ih]

/-- A run of `2 ^ s` after a count whose lowest one bit is higher, or after
none, makes `s` the lowest one bit. -/
theorem trailingZeros_add_two_pow {c s : ℕ} (hc : c = 0 ∨ s < trailingZeros c) : trailingZeros (c + 2 ^ s) = s := by
  rcases Nat.eq_zero_or_pos c with rfl | hpos
  · rw [Nat.zero_add, trailingZeros_two_pow]
  · have hs : s < trailingZeros c := hc.resolve_left (by omega)
    obtain ⟨y, hy⟩ := exists_eq_two_pow_trailingZeros_mul hpos
    obtain ⟨q, rfl⟩ : 2 ^ (s + 1) ∣ c := (Nat.pow_dvd_pow 2 hs).trans (Dvd.intro _ hy.symm)
    have hsplit : 2 ^ (s + 1) * q + 2 ^ s = 2 ^ s * (2 * q + 1) := by
      rw [Nat.pow_succ, Nat.mul_assoc, Nat.mul_add, Nat.mul_one]
    rw [hsplit, trailingZeros_two_pow_mul_odd]

/-- Clearing the highest one bit, `x & !2^s` written with a mask `x & 2^s`,
leaves what is below it. -/
theorem two_pow_add_xor_and {s r : ℕ} (hr : r < 2 ^ s) : (2 ^ s + r) ^^^ ((2 ^ s + r) &&& 2 ^ s) = r := by
  rw [Nat.add_comm, ← Nat.or_two_pow_eq_add_of_lt hr]
  apply Nat.eq_of_testBit_eq
  intro j
  simp only [Nat.testBit_xor, Nat.testBit_and, Nat.testBit_or, Nat.testBit_two_pow]
  by_cases hj : s = j
  · -- the cleared bit: `r` has none there
    subst hj
    simp [Nat.testBit_lt_two_pow hr]
  · simp [hj]

/-- Below a higher one bit, `2 ^ s + r` has the bits of `r` and bit `s`. -/
theorem testBit_two_pow_add_of_lt {s r : ℕ} (hr : r < 2 ^ s) (l : ℕ) :
    (2 ^ s + r).testBit l = (decide (s = l) || r.testBit l) := by
  rw [Nat.add_comm, ← Nat.or_two_pow_eq_add_of_lt hr, Nat.testBit_or, Nat.testBit_two_pow, Bool.or_comm]

@[simp] theorem trailingZeros_zero : trailingZeros 0 = 0 := by simp [trailingZeros]

/-- Only a positive count has a trailing zero to speak of. -/
theorem pos_of_lt_trailingZeros {c s : ℕ} (h : s < trailingZeros c) : 0 < c := by
  rcases Nat.eq_zero_or_pos c with rfl | hc
  · rw [trailingZeros_zero] at h
    omega
  · exact hc

/-- A count that `2 ^ l` divides has at least `l` trailing zeros. -/
theorem le_trailingZeros_of_two_pow_dvd {c l : ℕ} (hc : 0 < c) (h : 2 ^ l ∣ c) : l ≤ trailingZeros c := by
  obtain ⟨y, hy⟩ := exists_eq_two_pow_trailingZeros_mul hc
  by_contra hlt
  have hdvd : 2 ^ trailingZeros c * 2 ∣ 2 ^ trailingZeros c * (2 * y + 1) := by
    rw [← Nat.pow_succ, ← hy]
    exact (Nat.pow_dvd_pow 2 (by omega)).trans h
  have := (Nat.mul_dvd_mul_iff_left (Nat.two_pow_pos _)).1 hdvd
  omega

end Nat
