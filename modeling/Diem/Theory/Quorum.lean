import Mathlib.Algebra.BigOperators.Group.Finset.Basic
import Mathlib.Algebra.Order.BigOperators.Group.Finset

/-!
# Weighted quorums

Members carry weights `w`; a set of members is a quorum when its weight
reaches a threshold `q`. Two quorums inside a population of total weight `T`
overlap in weight at least `2q - T`, so a threshold above two thirds of `T`
makes every two quorums share more than a third of it.
-/

namespace Quorum

open Finset

variable {α : Type*} [DecidableEq α] (w : α → ℕ)

/-- Inclusion–exclusion for weights inside a population `U`. -/
theorem sum_add_sum_le {A B U : Finset α} (hA : A ⊆ U) (hB : B ⊆ U) :
    ∑ a ∈ A, w a + ∑ a ∈ B, w a ≤ ∑ a ∈ U, w a + ∑ a ∈ A ∩ B, w a := by
  rw [← sum_union_inter]
  have hU : ∑ a ∈ A ∪ B, w a ≤ ∑ a ∈ U, w a := sum_le_sum_of_subset (union_subset hA hB)
  omega

/-- **Quorum intersection**: with a threshold `q` above two thirds of the total
weight `T`, any two quorums overlap in more than a third of `T`. -/
theorem lt_three_mul_sum_inter {A B U : Finset α} {q T : ℕ} (hA : A ⊆ U) (hB : B ⊆ U)
    (hT : ∑ a ∈ U, w a = T) (hq : 2 * T < 3 * q) (hqA : q ≤ ∑ a ∈ A, w a)
    (hqB : q ≤ ∑ a ∈ B, w a) : T < 3 * ∑ a ∈ A ∩ B, w a := by
  have := sum_add_sum_le w hA hB
  omega

end Quorum
