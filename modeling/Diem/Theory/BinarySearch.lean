import Mathlib.Order.Basic
import Mathlib.Tactic.Ring

/-!
# Binary search over a slice read through a fallible probe

Two loops over indices `i ≤ j`, each reading one index of a slice per round
through `probe`, which answers `none` where the read is out of bounds:

* `firstTrue`: `mid = i + (j - i) / 2`, keep `[i, mid)` when the test holds at
  `mid` and `[mid + 1, j)` otherwise; it returns the first index of `[i, j)`
  where the test holds, or `j`.
* `lastFalse`: `mid = j - (j - i) / 2`, keep `[i, mid - 1]` when the test
  holds at `mid` and `[mid, j]` otherwise; from an `i` where the test fails
  it returns the last index of `[i, j]` where the test fails.

Each round shortens `j - i`, so both end; each reads only indices of the
range it searches (`firstTrue_isSome`, `lastFalse_isSome`), so neither fails
when the probe answers there. On a test that switches from false to true
once, the index found is the switch (`firstTrue_spec`, `lastFalse_spec`).

Nothing here is specific to one program.
-/

namespace BinarySearch

variable (probe : ℕ → Option Bool)

/-- The search for the first index of `[i, j)` where the test holds. -/
def firstTrue (i j : ℕ) : Option ℕ :=
  if i < j then
    let mid := i + (j - i) / 2
    match probe mid with
    | some true => firstTrue i mid
    | some false => firstTrue (mid + 1) j
    | none => none
  else some i
termination_by j - i
decreasing_by all_goals omega

/-- The search for the last index of `[i, j]` where the test fails. -/
def lastFalse (i j : ℕ) : Option ℕ :=
  if i < j then
    let mid := j - (j - i) / 2
    match probe mid with
    | some true => lastFalse i (mid - 1)
    | some false => lastFalse mid j
    | none => none
  else some i
termination_by j - i
decreasing_by all_goals omega

variable {probe}

/-- `firstTrue` reads only indices of `[i, j)`: it fails only where a read
there fails. -/
theorem firstTrue_isSome {i j : ℕ} (h : ∀ k, i ≤ k → k < j → (probe k).isSome) : (firstTrue probe i j).isSome := by
  fun_induction firstTrue probe i j with
  | case1 i j hij mid hmid ih => exact ih fun k hk hkj => h k hk (by omega)
  | case2 i j hij mid hmid ih => exact ih fun k hk hkj => h k (by omega) hkj
  | case3 i j hij mid hmid =>
    have := h mid (by omega) (by omega)
    rw [hmid] at this
    cases this
  | case4 i j hij => rfl

/-- `lastFalse` reads only indices of `(i, j]`. -/
theorem lastFalse_isSome {i j : ℕ} (h : ∀ k, i < k → k ≤ j → (probe k).isSome) : (lastFalse probe i j).isSome := by
  fun_induction lastFalse probe i j with
  | case1 i j hij mid hmid ih => exact ih fun k hk hkj => h k hk (by omega)
  | case2 i j hij mid hmid ih => exact ih fun k hk hkj => h k (by omega) hkj
  | case3 i j hij mid hmid =>
    have := h mid (by omega) (by omega)
    rw [hmid] at this
    cases this
  | case4 i j hij => rfl

section Spec

/-! ### On a test that switches once

The probe reads `q` on the range searched, and `q` switches from false to true
at most once there. -/

variable {q : ℕ → Bool}

/-- An answer of a probe that reads `q` is `q`. -/
theorem eq_of_probe {k : ℕ} {b : Bool} (hk : probe k = some (q k)) (hb : probe k = some b) : q k = b :=
  Option.some.inj (hk.symm.trans hb)

/-- **`firstTrue` finds the switch**: the test fails before the index found
and holds from it on. -/
theorem firstTrue_spec {i j : ℕ} (hij : i ≤ j) (hprobe : ∀ k, i ≤ k → k < j → probe k = some (q k))
    (hmono : ∀ a b, i ≤ a → a ≤ b → b < j → q a = true → q b = true) :
    ∃ r, firstTrue probe i j = some r ∧ i ≤ r ∧ r ≤ j ∧ (∀ k, i ≤ k → k < r → q k = false) ∧
      ∀ k, r ≤ k → k < j → q k = true := by
  fun_induction firstTrue probe i j with
  | case1 i j hlt mid hmid ih =>
    -- the test holds at `mid`, so on all of `[mid, j)`
    have hq : q mid = true := eq_of_probe (hprobe mid (by omega) (by omega)) hmid
    obtain ⟨r, hr, hir, hrm, hbelow, habove⟩ :=
      ih (by omega) (fun k hk hkm => hprobe k hk (by omega)) (fun a b ha hab hb => hmono a b ha hab (by omega))
    refine ⟨r, hr, hir, by omega, hbelow, fun k hk hkj => ?_⟩
    by_cases hkm : k < mid
    · exact habove k hk hkm
    · exact hmono mid k (by omega) (by omega) hkj hq
  | case2 i j hlt mid hmid ih =>
    -- the test fails at `mid`, so on all of `[i, mid]`
    have hq : q mid = false := eq_of_probe (hprobe mid (by omega) (by omega)) hmid
    obtain ⟨r, hr, hir, hrj, hbelow, habove⟩ :=
      ih (by omega) (fun k hk hkj => hprobe k (by omega) hkj) (fun a b ha hab hb => hmono a b (by omega) hab hb)
    refine ⟨r, hr, by omega, hrj, fun k hk hkr => ?_, habove⟩
    by_cases hkm : mid < k
    · exact hbelow k hkm hkr
    · cases hk' : q k with
      | false => rfl
      | true => rw [hmono k mid hk (by omega) (by omega) hk'] at hq; cases hq
  | case3 i j hlt mid hmid => cases hmid.symm.trans (hprobe mid (by omega) (by omega))
  | case4 i j hge =>
    exact ⟨i, rfl, le_rfl, hij, fun k hk hki => absurd hki (by omega), fun k hk hkj => absurd hkj (by omega)⟩

/-- **`lastFalse` finds the switch**: from an index where the test fails, the
test fails up to the index found and holds after it. -/
theorem lastFalse_spec {i j : ℕ} (hij : i ≤ j) (hprobe : ∀ k, i ≤ k → k ≤ j → probe k = some (q k))
    (hmono : ∀ a b, i ≤ a → a ≤ b → b ≤ j → q a = true → q b = true) (hi : q i = false) :
    ∃ r, lastFalse probe i j = some r ∧ i ≤ r ∧ r ≤ j ∧ (∀ k, i ≤ k → k ≤ r → q k = false) ∧
      ∀ k, r < k → k ≤ j → q k = true := by
  fun_induction lastFalse probe i j with
  | case1 i j hlt mid hmid ih =>
    -- the test holds at `mid`, so on all of `[mid, j]`
    have hq : q mid = true := eq_of_probe (hprobe mid (by omega) (by omega)) hmid
    obtain ⟨r, hr, hir, hrm, hbelow, habove⟩ :=
      ih (by omega) (fun k hk hkm => hprobe k hk (by omega)) (fun a b ha hab hb => hmono a b ha hab (by omega)) hi
    refine ⟨r, hr, hir, by omega, hbelow, fun k hk hkj => ?_⟩
    by_cases hkm : k ≤ mid - 1
    · exact habove k hk hkm
    · exact hmono mid k (by omega) (by omega) hkj hq
  | case2 i j hlt mid hmid ih =>
    -- the test fails at `mid`, so on all of `[i, mid]`
    have hq : q mid = false := eq_of_probe (hprobe mid (by omega) (by omega)) hmid
    obtain ⟨r, hr, hmr, hrj, hbelow, habove⟩ :=
      ih (by omega) (fun k hk hkj => hprobe k (by omega) hkj) (fun a b ha hab hb => hmono a b (by omega) hab hb) hq
    refine ⟨r, hr, by omega, hrj, fun k hk hkr => ?_, habove⟩
    by_cases hkm : mid ≤ k
    · exact hbelow k hkm hkr
    · cases hk' : q k with
      | false => rfl
      | true => rw [hmono k mid hk (by omega) (by omega) hk'] at hq; cases hq
  | case3 i j hlt mid hmid => cases hmid.symm.trans (hprobe mid (by omega) (by omega))
  | case4 i j hge =>
    refine ⟨i, rfl, le_rfl, hij, fun k hk hki => ?_, fun k hk hkj => absurd hkj (by omega)⟩
    rw [show k = i by omega]
    exact hi

end Spec

end BinarySearch
