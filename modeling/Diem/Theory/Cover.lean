import Mathlib.Order.UpperLower.Closure
import Mathlib.Data.Set.Lattice

/-!
# Covering one set by another

An abstract domain whose elements are sets of facts, ordered by a preorder on
the facts, compares two elements by covering: `A` covers `B` when every fact
of `B` has a fact of `A` below it, that is when `B` lies in the upper closure
of `A`. Covering is a preorder on sets, and `A` together with the facts of
`B` that `A` does not cover is a least upper bound of `A` and `B` for it.

The second part is the loop rule such a join is computed with: a loop in
`Option` whose every step succeeds and adds a known set to a summary of its
accumulator ends with the union of those sets added.
-/

namespace Cover

variable {α : Type*} [Preorder α] {A B C : Set α}

/-- `A` covers `B`: every element of `B` has one of `A` below it. -/
def Covers (A B : Set α) : Prop := B ⊆ upperClosure A

/-- The elements of `B` that `A` does not cover. -/
def unmatched (A B : Set α) : Set α := B \ upperClosure A

/-- `A` with the elements of `B` it does not cover. -/
def join (A B : Set α) : Set α := A ∪ unmatched A B

theorem covers_iff : Covers A B ↔ ∀ b ∈ B, ∃ a ∈ A, a ≤ b := by
  simp only [Covers, Set.subset_def, SetLike.mem_coe, mem_upperClosure]

theorem covers_refl (A : Set α) : Covers A A := subset_upperClosure

theorem Covers.trans (hAB : Covers A B) (hBC : Covers B C) : Covers A C :=
  Set.Subset.trans hBC (upperClosure_min hAB (upperClosure A).upper)

theorem covers_of_subset (h : B ⊆ A) : Covers A B := h.trans subset_upperClosure

theorem covers_iff_unmatched_eq_empty : Covers A B ↔ unmatched A B = ∅ := Set.sdiff_eq_empty.symm

theorem covers_join_left : Covers (join A B) A := covers_of_subset Set.subset_union_left

theorem covers_join_right : Covers (join A B) B := by
  intro b hb
  by_cases hA : b ∈ upperClosure A
  · -- covered by `A`, which the join contains
    exact upperClosure_anti Set.subset_union_left hA
  · exact subset_upperClosure (Set.mem_union_right A ⟨hb, hA⟩)

/-- The join is below every common upper bound. -/
theorem Covers.join_of (hA : Covers C A) (hB : Covers C B) : Covers C (join A B) := by
  rintro x (hx | ⟨hx, -⟩)
  · exact hA hx
  · exact hB hx

theorem covers_join_iff : Covers A (join A B) ↔ Covers A B :=
  ⟨fun h => h.trans covers_join_right, fun h => Covers.join_of (covers_refl A) h⟩

end Cover

namespace List

variable {β γ δ : Type*}

/-- A loop in `Option` whose every step, from an accumulator satisfying `P`,
succeeds, keeps `P` and adds `T c` to the summary `S` ends with `S` grown by
the union of `T` over the list. -/
theorem foldlM_some_collect {f : β → γ → Option β} (P : β → Prop) (S : β → Set δ) (T : γ → Set δ) :
    ∀ (l : List γ) (b : β), (∀ b, ∀ c ∈ l, P b → ∃ b', f b c = some b' ∧ P b' ∧ S b' = S b ∪ T c) → P b →
      ∃ b', l.foldlM f b = some b' ∧ P b' ∧ S b' = S b ∪ ⋃ c ∈ l, T c
  | [], b, _, hb => ⟨b, rfl, hb, by simp⟩
  | c :: l, b, hf, hb => by
    obtain ⟨b₁, h₁, hP₁, hS₁⟩ := hf b c mem_cons_self hb
    obtain ⟨b', h', hP', hS'⟩ :=
      foldlM_some_collect P S T l b₁ (fun b c hc => hf b c (mem_cons_of_mem _ hc)) hP₁
    have hcons : (⋃ d ∈ c :: l, T d) = T c ∪ ⋃ d ∈ l, T d := by
      ext x
      simp only [Set.mem_union, Set.mem_iUnion, mem_cons, exists_prop, exists_eq_or_imp]
    refine ⟨b', by rw [foldlM_cons, h₁]; exact h', hP', ?_⟩
    rw [hS', hS₁, hcons, Set.union_assoc]

end List
