import Mathlib.Algebra.Order.Group.Nat

/-!
# Digits from the most significant one

A number below `B ^ n` has `n` digits in base `B`, and digit `d` from the top
is `x / B ^ (n - 1 - d) % B`: the bits of a 32-byte hash read as a number are
its digits in base `2`, its nibbles those in base `16`. Numbers whose first
`k` digits agree have the same quotient by `B ^ (n - k)`
(`div_pow_eq_of_digits_eq`), and of two such numbers the lesser has the
lesser next digit (`digit_le_of_digits_eq`): in a sorted list of numbers
that share a prefix of digits, the next digit never goes down.

Nothing here is specific to one program.
-/

namespace Nat

/-- Of two numbers with the same quotient by `B`, the lesser has the lesser
remainder. -/
theorem mod_le_mod_of_div_eq {B x y : ℕ} (hxy : x ≤ y) (h : x / B = y / B) : x % B ≤ y % B := by
  have hx := Nat.div_add_mod x B
  have hy := Nat.div_add_mod y B
  rw [h] at hx
  omega

/-- The quotient by `B ^ m` is `B` times the quotient by `B ^ (m + 1)` plus
the digit there. -/
theorem div_pow_eq_mul_add_digit (B m z : ℕ) : z / B ^ m = B * (z / B ^ (m + 1)) + z / B ^ m % B := by
  rw [Nat.pow_succ, ← Nat.div_div_eq_div_mul]
  exact (Nat.div_add_mod _ B).symm

/-- **Numbers whose first `k` digits agree have the same quotient by
`B ^ (n - k)`.** -/
theorem div_pow_eq_of_digits_eq {B n x y : ℕ} (hx : x < B ^ n) (hy : y < B ^ n) :
    ∀ k ≤ n, (∀ d < k, x / B ^ (n - 1 - d) % B = y / B ^ (n - 1 - d) % B) → x / B ^ (n - k) = y / B ^ (n - k) := by
  intro k
  induction k with
  | zero =>
    intro _ _
    rw [Nat.sub_zero, Nat.div_eq_of_lt hx, Nat.div_eq_of_lt hy]
  | succ k ih =>
    intro hk hdigits
    -- one digit more: the quotient so far, shifted, plus the digit, which agrees
    have hhigh := ih (by omega) fun d hd => hdigits d (by omega)
    have hm : n - k = n - (k + 1) + 1 := by omega
    rw [hm] at hhigh
    rw [div_pow_eq_mul_add_digit B (n - (k + 1)) x, div_pow_eq_mul_add_digit B (n - (k + 1)) y, hhigh,
      show n - (k + 1) = n - 1 - k by omega, hdigits k (by omega)]

/-- **The lesser of two numbers with the same first `k` digits has the lesser
digit `k`.** -/
theorem digit_le_of_digits_eq {B n x y k : ℕ} (hx : x < B ^ n) (hy : y < B ^ n) (hk : k < n) (hxy : x ≤ y)
    (hdigits : ∀ d < k, x / B ^ (n - 1 - d) % B = y / B ^ (n - 1 - d) % B) :
    x / B ^ (n - 1 - k) % B ≤ y / B ^ (n - 1 - k) % B := by
  have hhigh := div_pow_eq_of_digits_eq hx hy k hk.le hdigits
  rw [show n - k = n - 1 - k + 1 by omega, Nat.pow_succ, ← Nat.div_div_eq_div_mul, ← Nat.div_div_eq_div_mul] at hhigh
  exact mod_le_mod_of_div_eq (Nat.div_le_div_right hxy) hhigh

end Nat
