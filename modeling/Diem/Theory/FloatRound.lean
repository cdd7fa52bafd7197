import Mathlib.Data.Int.Log
import Mathlib.Data.Rat.Floor
import Mathlib.Tactic.FieldSimp
import Mathlib.Tactic.Linarith
import Mathlib.Tactic.Positivity

/-!
# Rounding to a binary floating-point format

A binary floating-point number of precision `p` is `m * 2^e` for an integer
significand `|m| ≤ 2^p`. Round to nearest, ties to even (`round p x`) takes a
rational `x` to the nearest such number, and on a tie to the one whose
significand is even. This is how IEEE 754 rounds a conversion and the result
of each arithmetic operation; `binary64` has `p = 53`. The exponent is not
bounded here, so neither overflow nor subnormal numbers arise: for
magnitudes between `2^-1022` and `2^1024`, `round 53` is `binary64`
rounding.

* `abs_round_sub_le`: the rounding error is at most `|x| / 2^p`.
* `round_natCast`: a natural number below `2^p` is its own rounding.
* `ceil_div_le_ceil_round`: the rounded quotient of two natural numbers,
  the dividend below `2^p`, has a ceiling no smaller than the exact
  quotient's.
-/

namespace FloatRound

/-- The integer nearest `x`, the even one on a tie. -/
def roundHalfEven (x : ℚ) : ℤ :=
  if Int.fract x < 1 / 2 then ⌊x⌋
  else if 1 / 2 < Int.fract x then ⌊x⌋ + 1
  else if Even ⌊x⌋ then ⌊x⌋ else ⌊x⌋ + 1

/-- The exponent of the last significand bit of `x` in precision `p`. -/
def lsbExp (p : ℕ) (x : ℚ) : ℤ := Int.log 2 |x| + 1 - p

/-- `x` rounded to nearest, ties to even, in precision `p`. -/
def round (p : ℕ) (x : ℚ) : ℚ := roundHalfEven (x / 2 ^ lsbExp p x) * 2 ^ lsbExp p x

theorem abs_roundHalfEven_sub_le (x : ℚ) : |(roundHalfEven x : ℚ) - x| ≤ 1 / 2 := by
  have h0 := Int.fract_nonneg x
  have h1 := Int.fract_lt_one x
  unfold roundHalfEven
  rw [← Int.self_sub_floor] at *
  split_ifs <;> push_cast <;> rw [abs_le] <;> constructor <;> linarith

@[simp] theorem roundHalfEven_intCast (n : ℤ) : roundHalfEven n = n := by
  simp [roundHalfEven]

@[simp] theorem round_zero (p : ℕ) : round p 0 = 0 := by simp [round, roundHalfEven]

/-- **The rounding error** is at most `|x| / 2^p`: half the last bit. -/
theorem abs_round_sub_le (p : ℕ) (x : ℚ) : |round p x - x| ≤ |x| / 2 ^ p := by
  rcases eq_or_ne x 0 with rfl | hx
  · simp
  have hpos : (0 : ℚ) < 2 ^ lsbExp p x := zpow_pos two_pos _
  -- the error is at most half the last bit
  have herr : |round p x - x| ≤ 2 ^ lsbExp p x / 2 := by
    have hsplit : round p x - x =
        ((roundHalfEven (x / 2 ^ lsbExp p x) : ℚ) - x / 2 ^ lsbExp p x) * 2 ^ lsbExp p x := by
      unfold round
      field_simp
    rw [hsplit, abs_mul, abs_of_pos hpos]
    have := abs_roundHalfEven_sub_le (x / 2 ^ lsbExp p x)
    calc _ ≤ 1 / 2 * (2 : ℚ) ^ lsbExp p x := mul_le_mul_of_nonneg_right this hpos.le
      _ = _ := by ring
  -- and the last bit is at most `2 |x| / 2^p`, as `2 ^ log |x| ≤ |x|`
  have hlog : (2 : ℚ) ^ Int.log 2 |x| ≤ |x| := by
    exact_mod_cast Int.zpow_log_le_self one_lt_two (abs_pos.2 hx)
  have hbit : (2 : ℚ) ^ lsbExp p x / 2 = 2 ^ Int.log 2 |x| / 2 ^ p := by
    unfold lsbExp
    rw [zpow_sub₀ two_ne_zero, zpow_add_one₀ two_ne_zero, zpow_natCast]
    field_simp
  rw [hbit] at herr
  exact herr.trans (div_le_div_of_nonneg_right hlog (by positivity))

theorem sub_div_le_round (p : ℕ) {x : ℚ} (hx : 0 ≤ x) : x - x / 2 ^ p ≤ round p x := by
  have := abs_round_sub_le p x
  rw [abs_of_nonneg hx, abs_le] at this
  linarith [this.1]

/-- **A natural number below `2^p` is its own rounding**: its last bit is at
or above the units. -/
theorem round_natCast {p n : ℕ} (hn : n < 2 ^ p) : round p n = n := by
  rcases Nat.eq_zero_or_pos n with rfl | hpos
  · simp
  have hlog : Nat.log 2 n < p := Nat.log_lt_of_lt_pow hpos.ne' hn
  have he : lsbExp p n = -((p - 1 - Nat.log 2 n : ℕ) : ℤ) := by
    unfold lsbExp
    rw [abs_of_nonneg (Nat.cast_nonneg n), Int.log_natCast]
    omega
  -- scaled to its last bit, `n` is the integer `n * 2 ^ k`
  have hs : (n : ℚ) / 2 ^ lsbExp p n = ((n * 2 ^ (p - 1 - Nat.log 2 n) : ℕ) : ℤ) := by
    rw [he, zpow_neg, zpow_natCast]
    push_cast
    field_simp
  unfold round
  rw [hs, roundHalfEven_intCast, he, zpow_neg, zpow_natCast]
  push_cast
  field_simp

/-- An integer within less than a half of `x` is the nearest to it. -/
theorem roundHalfEven_eq_of_abs_sub_lt {x : ℚ} {n : ℤ} (h : |x - n| < 1 / 2) : roundHalfEven x = n := by
  obtain ⟨h1, h2⟩ := abs_lt.1 h
  by_cases hx : (n : ℚ) ≤ x
  · have hfl : ⌊x⌋ = n := Int.floor_eq_iff.2 ⟨hx, by linarith⟩
    have hfr : Int.fract x < 1 / 2 := by
      rw [← Int.self_sub_floor, hfl]
      linarith
    rw [roundHalfEven, if_pos hfr, hfl]
  · -- `x` lies just below `n`
    have hfl : ⌊x⌋ = n - 1 := Int.floor_eq_iff.2 ⟨by push_cast; linarith, by push_cast; linarith⟩
    have hfr : 1 / 2 < Int.fract x := by
      rw [← Int.self_sub_floor, hfl]
      push_cast
      linarith
    rw [roundHalfEven, if_neg (not_lt.2 hfr.le), if_pos hfr, hfl, sub_add_cancel]

/-- `x` in the binade of `2^e` rounds to the multiple of its last bit within
less than half of that bit. -/
theorem round_eq_of_log {p : ℕ} {x : ℚ} {e n : ℤ} (hlog : Int.log 2 |x| = e)
    (hn : |x / 2 ^ (e + 1 - p) - n| < 1 / 2) : round p x = n * 2 ^ (e + 1 - p) := by
  have he : lsbExp p x = e + 1 - p := by rw [lsbExp, hlog]
  rw [round, he, roundHalfEven_eq_of_abs_sub_lt hn]

/-- **Rounding a quotient does not lower its ceiling**: for `a < 2^p`, the
exact quotient `a / b` exceeds the integer below its ceiling by at least
`1 / b`, more than the rounding error `(a / b) / 2^p`. -/
theorem ceil_div_le_ceil_round {p a b : ℕ} (hb : 0 < b) (ha : a < 2 ^ p) :
    ⌈(a / b : ℚ)⌉₊ ≤ ⌈round p (a / b)⌉₊ := by
  rcases Nat.eq_zero_or_pos a with rfl | hapos
  · simp
  have hb' : (0 : ℚ) < b := by exact_mod_cast hb
  have hq : (0 : ℚ) < a / b := by positivity
  obtain ⟨c, hc⟩ : ∃ c, ⌈(a / b : ℚ)⌉₊ = c + 1 := Nat.exists_eq_add_one.2 (Nat.ceil_pos.2 hq)
  have hcq : (c : ℚ) < a / b := Nat.lt_ceil.1 (by omega)
  have hcb : (c : ℚ) + 1 / b ≤ a / b := by
    have hlt : c * b < a := by exact_mod_cast (lt_div_iff₀ hb').1 hcq
    have hle : ((c * b + 1 : ℕ) : ℚ) ≤ a := by exact_mod_cast hlt
    have hsum : (c : ℚ) + 1 / b = ((c * b + 1 : ℕ) : ℚ) / b := by
      push_cast
      field_simp
    rw [hsum]
    exact div_le_div_of_nonneg_right hle hb'.le
  have herr : (a / b : ℚ) / 2 ^ p < 1 / b := by
    rw [div_div, div_lt_div_iff₀ (by positivity) hb', one_mul, mul_comm]
    exact mul_lt_mul_of_pos_left (by exact_mod_cast ha) hb'
  have hround := sub_div_le_round p hq.le
  rw [hc]
  exact Nat.lt_ceil.2 (by linarith)

end FloatRound
