import Diem.Theory.FloatRound
import Diem.Theory.Runs

/-!
# Token buckets

`Bucket` of `common/rate-limiter/src/rate_limit.rs`: a bucket of at most `size`
tokens, refilled with `rate` tokens for every whole second since its last
refill, from which callers take tokens and to which they return unused ones.

Clock readings and durations are natural numbers of nanoseconds, so
`elapsed().as_secs()` is a division by `ONE_SEC`, and each call takes its
clock reading as an argument. `usize` values are natural numbers whose
`saturating_*` operations cap at `USIZE_MAX`. The predicted wait
`(tokens_needed as f64 / self.rate as f64).ceil() as u32` is computed as
IEEE 754 does: each conversion and the division round to nearest, ties to
even, in 53 bits (`FloatRound.round 53`), and the cast to `u32` saturates.
The label, logging fields and metrics are left out.

A bucket never holds more than `size` tokens (`tokens_le_size`), and over every
run the tokens granted are at most the initial tokens, `rate` for each whole
second since creation, and the tokens returned (**`granted_le`**). When
`size < 2^53` and the wait fits in a `u32`, the time `acquire_all_tokens`
predicts is honest: the same call then succeeds (`acquireAllTokens_ok_of_wait`).
Without those bounds it is not (`acquireAllTokens_wait_too_early`): the cast
saturates at `u32::MAX` seconds, and converting `2^60 + 1` to `f64` rounds it
down.
-/

namespace Diem.RateLimiter

/-- `ONE_SEC`, in nanoseconds. -/
def ONE_SEC : ℕ := 1000000000

/-- `usize::MAX`. -/
def USIZE_MAX : ℕ := 2 ^ 64 - 1

/-- `u32::MAX`. -/
def U32_MAX : ℕ := 2 ^ 32 - 1

/-- `usize::saturating_add`. -/
def saturatingAdd (a b : ℕ) : ℕ := min (a + b) USIZE_MAX

/-- `usize::saturating_mul`. -/
def saturatingMul (a b : ℕ) : ℕ := min (a * b) USIZE_MAX

/-- `Bucket`, without its labels, metrics and per-period counters. -/
structure Bucket where
  /-- `tokens`: the tokens available. -/
  tokens : ℕ
  /-- `size`: the most tokens the bucket holds. -/
  size : ℕ
  /-- `rate`: the tokens added for each second. -/
  rate : ℕ
  /-- `last_refresh_time`. -/
  lastRefreshTime : ℕ
  /-- `enabled`: a disabled bucket lets everything through. -/
  enabled : Bool

namespace Bucket

/-- `Bucket::new`, created at clock reading `now`; `assert!(size >= rate)`
panics. -/
def new (initial size rate now : ℕ) : Option Bucket :=
  if size ≥ rate then some ⟨initial, size, rate, now, true⟩ else none

/-- `Bucket::open`: a bucket that lets everything through. -/
def «open» (now : ℕ) : Bucket := ⟨USIZE_MAX, USIZE_MAX, USIZE_MAX, now, false⟩

/-- `add_tokens`: the bucket does not overfill. -/
def addTokens (b : Bucket) (newTokens : ℕ) : Bucket :=
  { b with tokens := min b.size (saturatingAdd b.tokens newTokens) }

/-- `refill`: `rate` tokens for each whole second since the last refill,
whose time moves on by those seconds only. -/
def refill (b : Bucket) (now : ℕ) : Bucket :=
  let numIntervals := (now - b.lastRefreshTime) / ONE_SEC
  if numIntervals > 0 then
    let b := b.addTokens (saturatingMul numIntervals b.rate)
    { b with lastRefreshTime := b.lastRefreshTime + numIntervals * ONE_SEC }
  else b

/-- `deduct_tokens`: the tokens taken, at most those available. -/
def deductTokens (b : Bucket) (requested : ℕ) : ℕ × Bucket :=
  (min b.tokens requested, { b with tokens := b.tokens - requested })

/-- `time_of_next_refill`. -/
def timeOfNextRefill (b : Bucket) : ℕ := b.lastRefreshTime + ONE_SEC

/-- `(tokens_needed as f64 / rate as f64).ceil() as u32`. -/
def intervalsNeeded (tokensNeeded rate : ℕ) : ℕ :=
  if rate = 0 then
    -- `x / 0.0` is `+∞`, which the cast saturates; `0.0 / 0.0` is NaN, cast to `0`
    if tokensNeeded = 0 then 0 else U32_MAX
  else min ⌈FloatRound.round 53 (FloatRound.round 53 tokensNeeded / FloatRound.round 53 rate)⌉₊ U32_MAX

/-- `time_of_tokens_needed`: when `requested` tokens will be there, `none`
if never. -/
def timeOfTokensNeeded (b : Bucket) (requested now : ℕ) : Option ℕ :=
  if !b.enabled then some now
  else if b.size < requested then none
  else
    let tokensNeeded := requested - b.tokens
    some (b.lastRefreshTime + ONE_SEC * intervalsNeeded tokensNeeded b.rate)

/-- `acquire_all_tokens`: all of `requested`, or the time they will be
there. -/
def acquireAllTokens (b : Bucket) (requested now : ℕ) : Except (Option ℕ) Unit × Bucket :=
  if !b.enabled || requested == 0 then (.ok (), b)
  else
    let b := b.refill now
    if b.tokens ≥ requested then
      let (_, b) := b.deductTokens requested
      (.ok (), b)
    else (.error (b.timeOfTokensNeeded requested now), b)

/-- `acquire_tokens`: as many of `requested` as there are, or the time of
the next refill. -/
def acquireTokens (b : Bucket) (requested now : ℕ) : Except ℕ ℕ × Bucket :=
  if !b.enabled || requested == 0 then (.ok requested, b)
  else
    let b := b.refill now
    let (allowed, b) := b.deductTokens requested
    if allowed > 0 then (.ok allowed, b) else (.error b.timeOfNextRefill, b)

/-- `return_tokens`. -/
def returnTokens (b : Bucket) (newTokens : ℕ) : Bucket := b.addTokens newTokens

/-- A call on a bucket. -/
inductive Request where
  | acquireAllTokens (requested : ℕ)
  | acquireTokens (requested : ℕ)
  | returnTokens (newTokens : ℕ)

/-- What a call returns. -/
inductive Answer where
  | acquiredAll (result : Except (Option ℕ) Unit)
  | acquired (result : Except ℕ ℕ)
  | returned

/-- Make a call at a clock reading. -/
def step (b : Bucket) : ℕ × Request → Answer × Bucket
  | (now, .acquireAllTokens requested) =>
    (.acquiredAll (b.acquireAllTokens requested now).1, (b.acquireAllTokens requested now).2)
  | (now, .acquireTokens requested) => (.acquired (b.acquireTokens requested now).1, (b.acquireTokens requested now).2)
  | (_, .returnTokens newTokens) => (.returned, b.returnTokens newTokens)

/-- The tokens a call was granted. -/
def granted : Request → Answer → ℕ
  | .acquireAllTokens requested, .acquiredAll (.ok ()) => requested
  | .acquireTokens _, .acquired (.ok allowed) => allowed
  | _, _ => 0

/-- The tokens a call returns. -/
def Request.returned : Request → ℕ
  | .returnTokens newTokens => newTokens
  | _ => 0

/-! ### One function at a time -/

variable {b : Bucket}

@[simp] theorem addTokens_tokens (n : ℕ) : (b.addTokens n).tokens = min b.size (saturatingAdd b.tokens n) := rfl
@[simp] theorem addTokens_size (n : ℕ) : (b.addTokens n).size = b.size := rfl
@[simp] theorem addTokens_rate (n : ℕ) : (b.addTokens n).rate = b.rate := rfl
@[simp] theorem addTokens_lastRefreshTime (n : ℕ) : (b.addTokens n).lastRefreshTime = b.lastRefreshTime := rfl
@[simp] theorem addTokens_enabled (n : ℕ) : (b.addTokens n).enabled = b.enabled := rfl

theorem addTokens_tokens_le (n : ℕ) : (b.addTokens n).tokens ≤ b.tokens + n := by
  simp only [addTokens_tokens, saturatingAdd]
  omega

@[simp] theorem refill_size (now : ℕ) : (b.refill now).size = b.size := by
  dsimp only [refill]; split_ifs <;> rfl
@[simp] theorem refill_rate (now : ℕ) : (b.refill now).rate = b.rate := by
  dsimp only [refill]; split_ifs <;> rfl
@[simp] theorem refill_enabled (now : ℕ) : (b.refill now).enabled = b.enabled := by
  dsimp only [refill]; split_ifs <;> rfl

/-- The refill moves on by the whole seconds elapsed. -/
theorem refill_lastRefreshTime (now : ℕ) :
    (b.refill now).lastRefreshTime = b.lastRefreshTime + (now - b.lastRefreshTime) / ONE_SEC * ONE_SEC := by
  dsimp only [refill]
  split_ifs with h
  · rfl
  · simp only [gt_iff_lt, not_lt, Nat.le_zero] at h
    simp [h]

theorem refill_tokens (now : ℕ) :
    (b.refill now).tokens = if 0 < (now - b.lastRefreshTime) / ONE_SEC then
      min b.size (saturatingAdd b.tokens (saturatingMul ((now - b.lastRefreshTime) / ONE_SEC) b.rate)) else b.tokens := by
  dsimp only [refill]
  split_ifs <;> rfl

/-- A refill adds at most `rate` tokens for each whole second. -/
theorem refill_tokens_le (now : ℕ) :
    (b.refill now).tokens ≤ b.tokens + (now - b.lastRefreshTime) / ONE_SEC * b.rate := by
  rw [refill_tokens]
  split_ifs
  · simp only [saturatingAdd, saturatingMul]
    generalize (now - b.lastRefreshTime) / ONE_SEC * b.rate = added
    omega
  · omega

theorem refill_tokens_le_size (now : ℕ) (h : b.tokens ≤ b.size) : (b.refill now).tokens ≤ b.size := by
  rw [refill_tokens]
  split_ifs
  · exact min_le_left _ _
  · exact h

/-- With no saturation in sight, a refill adds `rate` tokens for each whole
second, up to `size`. -/
theorem refill_tokens_of_le (now : ℕ) (h : b.tokens ≤ b.size) (hsize : b.size ≤ USIZE_MAX) :
    (b.refill now).tokens = min b.size (b.tokens + (now - b.lastRefreshTime) / ONE_SEC * b.rate) := by
  rw [refill_tokens]
  split_ifs with hk
  · simp only [saturatingAdd, saturatingMul]
    generalize (now - b.lastRefreshTime) / ONE_SEC * b.rate = added
    omega
  · simp only [not_lt, Nat.le_zero] at hk
    simp [hk, h]

@[simp] theorem deductTokens_fst (requested : ℕ) : (b.deductTokens requested).1 = min b.tokens requested := rfl

/-- **`acquire_all_tokens`** on an enabled bucket: nothing for nothing; all
tokens after the refill, or the time they will be there. -/
theorem acquireAllTokens_spec (he : b.enabled = true) (requested now : ℕ) :
    (requested = 0 ∧ b.acquireAllTokens requested now = (.ok (), b)) ∨
    (0 < requested ∧ requested ≤ (b.refill now).tokens ∧
      b.acquireAllTokens requested now = (.ok (), { b.refill now with tokens := (b.refill now).tokens - requested })) ∨
    (0 < requested ∧ (b.refill now).tokens < requested ∧
      b.acquireAllTokens requested now = (.error ((b.refill now).timeOfTokensNeeded requested now), b.refill now)) := by
  rcases Nat.eq_zero_or_pos requested with rfl | hr
  · left
    simp [acquireAllTokens]
  · right
    have hr' : (requested == 0) = false := by simpa using hr.ne'
    by_cases henough : requested ≤ (b.refill now).tokens
    · left
      simp [acquireAllTokens, he, hr, hr', henough, deductTokens]
    · right
      simp [acquireAllTokens, he, hr, hr', henough, not_le.1 henough]

/-- **`acquire_tokens`** on an enabled bucket: nothing for nothing; otherwise
the tokens after the refill, at most `requested`, are taken. -/
theorem acquireTokens_spec (he : b.enabled = true) (requested now : ℕ) :
    (requested = 0 ∧ b.acquireTokens requested now = (.ok 0, b)) ∨
    (0 < requested ∧ b.acquireTokens requested now =
      (if 0 < min (b.refill now).tokens requested then .ok (min (b.refill now).tokens requested)
        else .error (b.refill now).timeOfNextRefill,
        { b.refill now with tokens := (b.refill now).tokens - requested })) := by
  rcases Nat.eq_zero_or_pos requested with rfl | hr
  · left
    simp [acquireTokens]
  · right
    have hr' : (requested == 0) = false := by simpa using hr.ne'
    refine ⟨hr, ?_⟩
    simp only [acquireTokens, he, hr', Bool.not_true, Bool.or_self, Bool.false_eq_true, if_false, deductTokens]
    by_cases hallowed : 0 < min (b.refill now).tokens requested <;> simp [hallowed, timeOfNextRefill]

/-! ### The predicted wait -/

/-- Below `2^53` the conversions to `f64` are exact. -/
theorem intervalsNeeded_of_lt {n rate : ℕ} (hn : n < 2 ^ 53) (hr : 0 < rate) (hr' : rate < 2 ^ 53) :
    intervalsNeeded n rate = min ⌈FloatRound.round 53 (n / rate)⌉₊ U32_MAX := by
  rw [intervalsNeeded, if_neg hr.ne', FloatRound.round_natCast hn, FloatRound.round_natCast hr']

/-- **The wait is long enough** when the conversions are exact and the wait
fits in a `u32`: that many seconds of refills bring the tokens needed. -/
theorem le_intervalsNeeded_mul {n rate : ℕ} (hn : n < 2 ^ 53) (hr : 0 < rate) (hr' : rate < 2 ^ 53)
    (hu : n ≤ rate * U32_MAX) : n ≤ intervalsNeeded n rate * rate := by
  have hrq : (0 : ℚ) < rate := by exact_mod_cast hr
  -- the exact quotient's ceiling fits in a `u32`, and rounding does not lower it
  have hceil : ⌈(n / rate : ℚ)⌉₊ ≤ U32_MAX := by
    refine Nat.ceil_le.2 ((div_le_iff₀ hrq).2 ?_)
    rw [mul_comm]
    exact_mod_cast hu
  have hle : ⌈(n / rate : ℚ)⌉₊ ≤ intervalsNeeded n rate := by
    rw [intervalsNeeded_of_lt hn hr hr']
    exact le_min (FloatRound.ceil_div_le_ceil_round hr hn) hceil
  have hn' : n ≤ ⌈(n / rate : ℚ)⌉₊ * rate := by
    have := (div_le_iff₀ hrq).1 (Nat.le_ceil (n / rate : ℚ))
    exact_mod_cast this
  exact hn'.trans (Nat.mul_le_mul_right _ hle)

/-! ### Runs from `new` -/

/-- A bucket made by `new initial size rate T0`, at any point of its life:
its size and rate, enabled, at most `size` tokens, and last refilled a whole
number of seconds after its creation. -/
structure Valid (size rate T0 : ℕ) (b : Bucket) : Prop where
  size_eq : b.size = size
  rate_eq : b.rate = rate
  enabled : b.enabled = true
  tokens_le : b.tokens ≤ size
  lastRefreshTime_eq : ∃ n, b.lastRefreshTime = T0 + n * ONE_SEC

/-- The whole seconds of refills since creation at `T0`. -/
def refilled (T0 : ℕ) (b : Bucket) : ℕ := (b.lastRefreshTime - T0) / ONE_SEC

section Valid

variable {size rate T0 : ℕ}

theorem valid_of_new {initial : ℕ} (hnew : new initial size rate T0 = some b) (hinit : initial ≤ size) :
    Valid size rate T0 b := by
  unfold new at hnew
  split_ifs at hnew
  cases hnew
  exact ⟨rfl, rfl, rfl, hinit, 0, by simp⟩

theorem Valid.refill (h : Valid size rate T0 b) (now : ℕ) : Valid size rate T0 (b.refill now) := by
  obtain ⟨n, hn⟩ := h.lastRefreshTime_eq
  refine ⟨by simp [h.size_eq], by simp [h.rate_eq], by simp [h.enabled], ?_, ?_⟩
  · rw [← h.size_eq]
    exact refill_tokens_le_size now (h.size_eq ▸ h.tokens_le)
  · exact ⟨n + (now - b.lastRefreshTime) / ONE_SEC, by rw [refill_lastRefreshTime, hn]; ring⟩

theorem Valid.refilled_refill (h : Valid size rate T0 b) (now : ℕ) :
    refilled T0 (b.refill now) = refilled T0 b + (now - b.lastRefreshTime) / ONE_SEC := by
  obtain ⟨n, hn⟩ := h.lastRefreshTime_eq
  have hpos : 0 < ONE_SEC := by decide
  simp only [refilled, refill_lastRefreshTime, hn]
  rw [Nat.add_assoc, Nat.add_sub_cancel_left, Nat.add_sub_cancel_left, ← Nat.add_mul, Nat.mul_div_cancel _ hpos,
    Nat.mul_div_cancel _ hpos]

/-- **A refill adds `rate` tokens per second refilled**, at most. -/
theorem Valid.tokens_refill_add_le (h : Valid size rate T0 b) (now : ℕ) :
    (b.refill now).tokens + rate * refilled T0 b ≤ b.tokens + rate * refilled T0 (b.refill now) := by
  have hle := refill_tokens_le (b := b) now
  rw [h.rate_eq, mul_comm] at hle
  rw [h.refilled_refill, Nat.mul_add]
  omega

/-- **Every call keeps a bucket valid.** -/
theorem Valid.step (h : Valid size rate T0 b) : ∀ x : ℕ × Request, Valid size rate T0 (b.step x).2
  | (now, .acquireAllTokens requested) => by
    have h₁ := h.refill now
    rcases acquireAllTokens_spec h.enabled requested now with ⟨-, hr⟩ | ⟨-, -, hr⟩ | ⟨-, -, hr⟩ <;>
      simp only [Bucket.step, hr]
    · exact h
    · exact ⟨h₁.size_eq, h₁.rate_eq, h₁.enabled, Nat.le_trans (Nat.sub_le _ _) h₁.tokens_le, h₁.lastRefreshTime_eq⟩
    · exact h₁
  | (now, .acquireTokens requested) => by
    have h₁ := h.refill now
    rcases acquireTokens_spec h.enabled requested now with ⟨-, hr⟩ | ⟨-, hr⟩ <;> simp only [Bucket.step, hr]
    · exact h
    · exact ⟨h₁.size_eq, h₁.rate_eq, h₁.enabled, Nat.le_trans (Nat.sub_le _ _) h₁.tokens_le, h₁.lastRefreshTime_eq⟩
  | (_, .returnTokens newTokens) =>
    ⟨h.size_eq, h.rate_eq, h.enabled, by simp only [Bucket.step, returnTokens, addTokens_tokens, h.size_eq]; exact min_le_left _ _,
      h.lastRefreshTime_eq⟩

/-- **One call keeps the account**: the tokens after it and those it was
granted are at most those before, those it returned, and `rate` for each
second it refilled. -/
theorem Valid.tokens_step_add_granted_le (h : Valid size rate T0 b) :
    ∀ x : ℕ × Request, (b.step x).2.tokens + granted x.2 (b.step x).1 + rate * refilled T0 b ≤
      b.tokens + x.2.returned + rate * refilled T0 (b.step x).2
  | (now, .acquireAllTokens requested) => by
    have hrefill := h.tokens_refill_add_le now
    rcases acquireAllTokens_spec h.enabled requested now with ⟨rfl, hr⟩ | ⟨-, henough, hr⟩ | ⟨-, -, hr⟩ <;>
      simp only [Bucket.step, hr, granted, Request.returned]
    · omega
    · -- all `requested` tokens were there after the refill
      simp only [refilled] at hrefill ⊢
      omega
    · omega
  | (now, .acquireTokens requested) => by
    have hrefill := h.tokens_refill_add_le now
    rcases acquireTokens_spec h.enabled requested now with ⟨rfl, hr⟩ | ⟨-, hr⟩ <;>
      simp only [Bucket.step, hr, Request.returned]
    · simp only [granted]
      omega
    · -- the tokens taken are at most those there after the refill
      simp only [refilled] at hrefill ⊢
      split_ifs <;> simp only [granted] <;> omega
  | (_, .returnTokens newTokens) => by
    have hadd := addTokens_tokens_le (b := b) newTokens
    simp only [Bucket.step, returnTokens, granted, Request.returned, refilled, addTokens_lastRefreshTime]
    omega

theorem refill_lastRefreshTime_le (now : ℕ) : (b.refill now).lastRefreshTime ≤ max b.lastRefreshTime now := by
  have := Nat.div_mul_le_self (now - b.lastRefreshTime) ONE_SEC
  rw [refill_lastRefreshTime]
  omega

/-- A call refills no later than its clock reading. -/
theorem Valid.lastRefreshTime_step_le (h : Valid size rate T0 b) :
    ∀ x : ℕ × Request, (b.step x).2.lastRefreshTime ≤ max b.lastRefreshTime x.1
  | (now, .acquireAllTokens requested) => by
    have hle := refill_lastRefreshTime_le (b := b) now
    rcases acquireAllTokens_spec h.enabled requested now with ⟨-, hr⟩ | ⟨-, -, hr⟩ | ⟨-, -, hr⟩ <;>
      simp only [Bucket.step, hr]
    · exact le_max_left _ _
    · exact hle
    · exact hle
  | (now, .acquireTokens requested) => by
    have hle := refill_lastRefreshTime_le (b := b) now
    rcases acquireTokens_spec h.enabled requested now with ⟨-, hr⟩ | ⟨-, hr⟩ <;> simp only [Bucket.step, hr]
    · exact le_max_left _ _
    · exact hle
  | (_, .returnTokens _) => le_max_left _ _

/-- Over a run whose clock readings are at most `t`, the bucket is refilled
no later than `t`. -/
theorem Valid.lastRefreshTime_final_le {t : ℕ} :
    ∀ {b : Bucket} (is : List (ℕ × Request)), Valid size rate T0 b → (∀ x ∈ is, x.1 ≤ t) →
      (Mealy.final Bucket.step b is).lastRefreshTime ≤ max b.lastRefreshTime t
  | _, [], _, _ => le_max_left _ _
  | b, x :: is, h, ht => by
    have hx := h.lastRefreshTime_step_le x
    have hrest := Valid.lastRefreshTime_final_le is (h.step x) fun y hy => ht y (List.mem_cons_of_mem _ hy)
    have hxt := ht x List.mem_cons_self
    exact hrest.trans (by omega)

/-! ### What each call guarantees -/

/-- `acquire_all_tokens` answers `Err(None)` only for more than `size`
tokens. -/
theorem Valid.size_lt_of_acquireAllTokens_none (h : Valid size rate T0 b) {requested now : ℕ}
    (herr : (b.acquireAllTokens requested now).1 = .error none) : size < requested := by
  rcases acquireAllTokens_spec h.enabled requested now with ⟨-, hr⟩ | ⟨-, -, hr⟩ | ⟨-, -, hr⟩ <;>
    rw [hr] at herr
  · cases herr
  · cases herr
  · simp only [timeOfTokensNeeded, refill_enabled, h.enabled, refill_size, h.size_eq, Bool.not_true,
      Bool.false_eq_true, if_false] at herr
    split_ifs at herr with hbig
    · exact hbig
    · cases herr

/-- `acquire_tokens` grants at most the tokens requested and the tokens
there after the refill. -/
theorem Valid.acquireTokens_ok_le (h : Valid size rate T0 b) {requested now k : ℕ}
    (hok : (b.acquireTokens requested now).1 = .ok k) : k ≤ requested ∧ k ≤ (b.refill now).tokens := by
  rcases acquireTokens_spec h.enabled requested now with ⟨rfl, hr⟩ | ⟨-, hr⟩ <;> rw [hr] at hok
  · cases hok
    exact ⟨le_rfl, Nat.zero_le _⟩
  · split_ifs at hok
    cases hok
    exact ⟨min_le_right _ _, min_le_left _ _⟩

/-- **An honest wait**: when `size < 2^53` and every wait fits in a `u32`,
`acquire_all_tokens` called again at or after the time it predicted
succeeds. -/
theorem Valid.acquireAllTokens_ok_of_wait (h : Valid size rate T0 b) (hrate : rate ≤ size)
    (hsize : size < 2 ^ 53) (hwait : size ≤ rate * U32_MAX) {requested now τ : ℕ}
    (herr : (b.acquireAllTokens requested now).1 = .error (some τ)) {now' : ℕ} (hnow' : τ ≤ now') :
    ((b.acquireAllTokens requested now).2.acquireAllTokens requested now').1 = .ok () := by
  have h₁ := h.refill now
  rcases acquireAllTokens_spec h.enabled requested now with ⟨-, hr⟩ | ⟨-, -, hr⟩ | ⟨hpos, hshort, hr⟩ <;>
    rw [hr] at herr ⊢
  · cases herr
  · cases herr
  simp only [timeOfTokensNeeded, h₁.enabled, h₁.size_eq, h₁.rate_eq, Bool.not_true, Bool.false_eq_true,
    if_false] at herr
  split_ifs at herr with hbig
  · cases herr
  simp only [Except.error.injEq, Option.some.injEq] at herr
  subst herr
  have hneed : requested - (b.refill now).tokens < 2 ^ 53 := by omega
  have hrpos : 0 < rate := by
    rcases Nat.eq_zero_or_pos rate with h0 | h0
    · rw [h0, zero_mul] at hwait
      omega
    · exact h0
  have hcover := le_intervalsNeeded_mul hneed hrpos (by omega) (by omega)
  have hsecs : intervalsNeeded (requested - (b.refill now).tokens) rate ≤
      (now' - (b.refill now).lastRefreshTime) / ONE_SEC :=
    (Nat.le_div_iff_mul_le (by decide)).2 (by rw [mul_comm]; omega)
  have henough : requested ≤ ((b.refill now).refill now').tokens := by
    rw [refill_tokens_of_le now' (h₁.size_eq ▸ h₁.tokens_le) (by rw [h₁.size_eq]; unfold USIZE_MAX; omega),
      h₁.size_eq, h₁.rate_eq]
    have := Nat.mul_le_mul_right rate hsecs
    omega
  rcases acquireAllTokens_spec h₁.enabled requested now' with ⟨-, hr'⟩ | ⟨-, -, hr'⟩ | ⟨-, hshort', -⟩
  · rw [hr']
  · rw [hr']
  · omega

end Valid

/-! ### Runs from `new` -/

section Runs

variable {initial size rate T0 : ℕ} {b₀ : Bucket}

theorem eq_of_new (hnew : new initial size rate T0 = some b₀) :
    b₀ = ⟨initial, size, rate, T0, true⟩ ∧ rate ≤ size := by
  unfold new at hnew
  split_ifs at hnew with h
  cases hnew
  exact ⟨rfl, h⟩

/-- **A bucket never holds more than `size` tokens.** -/
theorem tokens_le_size (hnew : new initial size rate T0 = some b₀) (hinit : initial ≤ size)
    (is : List (ℕ × Request)) : (Mealy.final step b₀ is).tokens ≤ size :=
  (Mealy.reachable_inv step (fun b x (h : Valid size rate T0 b) => h.step x) (Mealy.reachable_final step b₀ is)
    (valid_of_new hnew hinit)).tokens_le

/-- **The rate is enforced**: over a run whose clock readings are at most
`t`, the tokens granted are at most `initial`, `rate` for each whole second
from creation to `t`, and the tokens returned. -/
theorem granted_le (hnew : new initial size rate T0 = some b₀) (hinit : initial ≤ size)
    (is : List (ℕ × Request)) {t : ℕ} (ht : ∀ x ∈ is, x.1 ≤ t) :
    ((Mealy.trace step b₀ is).map fun tr => granted tr.input.2 tr.output).sum ≤
      initial + rate * ((t - T0) / ONE_SEC) + (is.map fun x => x.2.returned).sum := by
  have h₀ := valid_of_new hnew hinit
  -- the account `tokens - rate * refilled` bounds what the run grants, in `ℤ`
  have hrun := Mealy.sum_trace_le step (fun b => (b.tokens : ℤ) - rate * refilled T0 b)
    (fun tr => (tr.input.2.returned : ℤ)) (fun tr => (granted tr.input.2 tr.output : ℤ))
    (fun b x (h : Valid size rate T0 b) => h.step x)
    (fun b x (h : Valid size rate T0 b) => by
      have := h.tokens_step_add_granted_le x
      simp only [Mealy.transition_input, Mealy.transition_output]
      linarith) is h₀
  rw [Mealy.map_input_trace step (fun x : ℕ × Request => ((x.2.returned : ℕ) : ℤ)) b₀ is] at hrun
  obtain ⟨rfl, -⟩ := eq_of_new hnew
  have hstart : refilled T0 ⟨initial, size, rate, T0, true⟩ = 0 := by simp [refilled]
  have hend : refilled T0 (Mealy.final step ⟨initial, size, rate, T0, true⟩ is) ≤ (t - T0) / ONE_SEC := by
    have hle := h₀.lastRefreshTime_final_le is ht
    exact Nat.div_le_div_right (by simp only at hle; omega)
  have hend' : (rate : ℤ) * refilled T0 (Mealy.final step ⟨initial, size, rate, T0, true⟩ is) ≤
      rate * ((t - T0) / ONE_SEC : ℕ) := by
    exact_mod_cast Nat.mul_le_mul_left rate hend
  have hgranted : ((((Mealy.trace step ⟨initial, size, rate, T0, true⟩ is).map fun tr =>
      granted tr.input.2 tr.output).sum : ℕ) : ℤ) =
      ((Mealy.trace step ⟨initial, size, rate, T0, true⟩ is).map fun tr => (granted tr.input.2 tr.output : ℤ)).sum := by
    rw [← Nat.coe_castAddMonoidHom, map_list_sum, List.map_map]
    rfl
  have hreturned : (((is.map fun x => x.2.returned).sum : ℕ) : ℤ) = (is.map fun x => (x.2.returned : ℤ)).sum := by
    rw [← Nat.coe_castAddMonoidHom, map_list_sum, List.map_map]
    rfl
  have htokens : (0 : ℤ) ≤ (Mealy.final step ⟨initial, size, rate, T0, true⟩ is).tokens := Int.natCast_nonneg _
  rw [hstart, Nat.cast_zero, mul_zero, sub_zero] at hrun
  have key : ((((Mealy.trace step ⟨initial, size, rate, T0, true⟩ is).map fun tr =>
      granted tr.input.2 tr.output).sum : ℕ) : ℤ) ≤
      (initial : ℤ) + (rate : ℤ) * ((t - T0) / ONE_SEC : ℕ) + (((is.map fun x => x.2.returned).sum : ℕ) : ℤ) := by
    rw [hgranted, hreturned]
    linarith
  exact_mod_cast key

theorem valid_of_mem_trace (h₀ : Valid size rate T0 b₀) {is : List (ℕ × Request)}
    {tr : Mealy.Transition Bucket (ℕ × Request) Answer} (htr : tr ∈ Mealy.trace step b₀ is) :
    Valid size rate T0 tr.pre :=
  Mealy.reachable_inv step (fun b x (h : Valid size rate T0 b) => h.step x)
    (Mealy.reachable_of_mem_trace step htr).1 h₀

end Runs

/-! ### The predicted wait can come too early -/

theorem acquireAllTokens_ne_ok (he : b.enabled = true) {requested now : ℕ} (hpos : 0 < requested)
    (hshort : (b.refill now).tokens < requested) : (b.acquireAllTokens requested now).1 ≠ .ok () := by
  rcases acquireAllTokens_spec he requested now with ⟨h0, -⟩ | ⟨-, henough, -⟩ | ⟨-, -, hr⟩
  · omega
  · omega
  · rw [hr]
    intro h
    cases h

/-- The cast to `u32` saturates: `2^32` tokens at one a second are predicted
`u32::MAX` seconds away. -/
theorem intervalsNeeded_saturates : intervalsNeeded (2 ^ 32) 1 = U32_MAX := by
  rw [intervalsNeeded_of_lt (by norm_num) one_pos (by norm_num), Nat.cast_one, div_one,
    FloatRound.round_natCast (by norm_num), Nat.ceil_natCast]
  decide

/-- `f64` rounds `2^60 + 1` down to `2^60`: that many tokens at `2^60` a
second are predicted one second away. -/
theorem intervalsNeeded_rounds_down : intervalsNeeded (2 ^ 60 + 1) (2 ^ 60) = 1 := by
  have hlog : ∀ n : ℕ, 2 ^ 60 ≤ n → n < 2 ^ 61 → Int.log 2 |(n : ℚ)| = 60 := fun n h1 h2 => by
    rw [abs_of_nonneg (Nat.cast_nonneg n), Int.log_natCast, Nat.log_eq_of_pow_le_of_lt_pow h1 h2]
    rfl
  have hdown : FloatRound.round 53 ((2 ^ 60 + 1 : ℕ) : ℚ) = 2 ^ 60 := by
    rw [FloatRound.round_eq_of_log (n := 2 ^ 52) (hlog _ (by norm_num) (by norm_num)) (by norm_num)]
    norm_num
  have hexact : FloatRound.round 53 ((2 ^ 60 : ℕ) : ℚ) = 2 ^ 60 := by
    rw [FloatRound.round_eq_of_log (n := 2 ^ 52) (hlog _ le_rfl (by norm_num)) (by norm_num)]
    norm_num
  rw [intervalsNeeded, if_neg (by norm_num), hdown, hexact, div_self (by norm_num), ← Nat.cast_one,
    FloatRound.round_natCast (by norm_num), Nat.ceil_natCast]
  decide

/-- **The predicted time can come too early**: two buckets from `new`, each
refusing a request it can hold and predicting a time at which the same
request is refused again. -/
theorem acquireAllTokens_wait_too_early :
    (∃ b₀, new 0 (2 ^ 32) 1 0 = some b₀ ∧
      (b₀.acquireAllTokens (2 ^ 32) 0).1 = .error (some (ONE_SEC * U32_MAX)) ∧
      ((b₀.acquireAllTokens (2 ^ 32) 0).2.acquireAllTokens (2 ^ 32) (ONE_SEC * U32_MAX)).1 ≠ .ok ()) ∧
    (∃ b₀, new 0 (2 ^ 61) (2 ^ 60) 0 = some b₀ ∧
      (b₀.acquireAllTokens (2 ^ 60 + 1) 0).1 = .error (some ONE_SEC) ∧
      ((b₀.acquireAllTokens (2 ^ 60 + 1) 0).2.acquireAllTokens (2 ^ 60 + 1) ONE_SEC).1 ≠ .ok ()) := by
  refine ⟨⟨_, rfl, ?_, ?_⟩, ⟨_, rfl, ?_, ?_⟩⟩
  · simp [acquireAllTokens, refill, timeOfTokensNeeded, -Nat.reducePow, intervalsNeeded_saturates]
  · -- at the predicted time, `u32::MAX` seconds of refills bring `u32::MAX` tokens
    have hpost : (Bucket.acquireAllTokens ⟨0, 2 ^ 32, 1, 0, true⟩ (2 ^ 32) 0).2 = ⟨0, 2 ^ 32, 1, 0, true⟩ := by
      simp [acquireAllTokens, refill]
    rw [hpost]
    refine acquireAllTokens_ne_ok rfl (by norm_num) ?_
    rw [refill_tokens_of_le _ (by norm_num) (by norm_num [USIZE_MAX])]
    norm_num [ONE_SEC, U32_MAX]
  · simp [acquireAllTokens, refill, timeOfTokensNeeded, -Nat.reducePow, intervalsNeeded_rounds_down]
    norm_num
  · -- one second later, one refill brings `2^60` tokens
    have hpost : (Bucket.acquireAllTokens ⟨0, 2 ^ 61, 2 ^ 60, 0, true⟩ (2 ^ 60 + 1) 0).2 =
        ⟨0, 2 ^ 61, 2 ^ 60, 0, true⟩ := by
      simp [acquireAllTokens, refill]
    rw [hpost]
    refine acquireAllTokens_ne_ok rfl (by norm_num) ?_
    rw [refill_tokens_of_le _ (by norm_num) (by norm_num [USIZE_MAX])]
    norm_num [ONE_SEC]

end Bucket

open Bucket in
/-- **Token buckets** made by `new` with `initial ≤ size`, over every run of
calls: the bucket never holds more than `size` tokens; the tokens granted
are at most `initial`, `rate` for each whole second from creation to any
time at or after every call, and the tokens returned; `acquire_all_tokens`
answers `Err(None)` only for more than `size` tokens and, when `size < 2^53`
and every wait fits in a `u32`, succeeds when called again at or after the
time it predicts; `acquire_tokens` grants at most the tokens asked for and
those there. -/
theorem bucket_enforces_rate {initial size rate T0 : ℕ} {b₀ : Bucket} (hnew : new initial size rate T0 = some b₀)
    (hinit : initial ≤ size) :
    (∀ is, (Mealy.final step b₀ is).tokens ≤ size) ∧
    (∀ is t, (∀ x ∈ is, x.1 ≤ t) →
      ((Mealy.trace step b₀ is).map fun tr => granted tr.input.2 tr.output).sum ≤
        initial + rate * ((t - T0) / ONE_SEC) + (is.map fun x => x.2.returned).sum) ∧
    (∀ is, ∀ tr ∈ Mealy.trace step b₀ is, ∀ now requested, tr.input = (now, .acquireAllTokens requested) →
      (tr.output = .acquiredAll (.error none) → size < requested) ∧
      (size < 2 ^ 53 → size ≤ rate * U32_MAX → ∀ τ, tr.output = .acquiredAll (.error (some τ)) →
        ∀ now', τ ≤ now' → (step tr.post (now', .acquireAllTokens requested)).1 = .acquiredAll (.ok ()))) ∧
    (∀ is, ∀ tr ∈ Mealy.trace step b₀ is, ∀ now requested k, tr.input = (now, .acquireTokens requested) →
      tr.output = .acquired (.ok k) → k ≤ requested ∧ k ≤ (tr.pre.refill now).tokens) := by
  have h₀ := valid_of_new hnew hinit
  refine ⟨tokens_le_size hnew hinit, fun is t ht => granted_le hnew hinit is ht, ?_, ?_⟩
  · intro is tr htr now requested hin
    have h := valid_of_mem_trace h₀ htr
    obtain ⟨-, hpost, hout⟩ := Mealy.reachable_of_mem_trace step htr
    rw [hin] at hpost hout
    refine ⟨fun hnone => ?_, fun hsize hwait τ hτ now' hnow' => ?_⟩
    · rw [hout] at hnone
      exact h.size_lt_of_acquireAllTokens_none (Answer.acquiredAll.inj hnone)
    · -- the call answered the predicted time; the bucket after it is `tr.post`
      rw [hout] at hτ
      rw [hpost]
      exact congrArg Answer.acquiredAll
        (h.acquireAllTokens_ok_of_wait (eq_of_new hnew).2 hsize hwait (Answer.acquiredAll.inj hτ) hnow')
  · intro is tr htr now requested k hin hok
    have h := valid_of_mem_trace h₀ htr
    obtain ⟨-, -, hout⟩ := Mealy.reachable_of_mem_trace step htr
    rw [hin] at hout
    rw [hout] at hok
    exact h.acquireTokens_ok_le (Answer.acquired.inj hok)

/-- A bucket of ten tokens, one of them there at creation, refilled two a
second. -/
example :
    Bucket.new 1 10 2 0 = some ⟨1, 10, 2, 0, true⟩ ∧ 1 ≤ 10 ∧
      ∀ is, (Mealy.final Bucket.step ⟨1, 10, 2, 0, true⟩ is).tokens ≤ 10 :=
  ⟨rfl, by decide, (@bucket_enforces_rate 1 10 2 0 ⟨1, 10, 2, 0, true⟩ rfl (by decide)).1⟩

end Diem.RateLimiter
