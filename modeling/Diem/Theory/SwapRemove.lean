import Mathlib.Data.List.Perm.Basic
import Mathlib.Data.List.Nodup
import Mathlib.Algebra.BigOperators.Group.List.Basic

/-!
# Removing by swapping with the last element

Rust's `Vec::swap_remove(i)` removes the element at `i` in constant time by
moving the last element into its place; it panics when `i` is out of bounds,
so here the bound is an argument. Every element but the one removed keeps its
place, except the last, which moves to `i` (`getElem?_swapRemove`); and the
list is the removed element and the rest, in some order (`perm_swapRemove`),
so what is summed or counted over it loses exactly the element removed
(`sum_map_swapRemove_add`). Writing an element at an index (`IndexMut`) is
`List.set`; `map_getElem?_set` and `sum_map_set_add` say what it keeps and
what it changes.
-/

namespace List

variable {α β : Type*}

/-- `Vec::swap_remove(i)`: the last element takes the place of the one
removed. -/
def swapRemove (l : List α) (i : ℕ) (h : i < l.length) : List α :=
  (l.set i (l.getLast (ne_nil_of_length_pos (Nat.lt_of_le_of_lt (Nat.zero_le i) h)))).dropLast

variable {l : List α} {i : ℕ}

@[simp] theorem length_swapRemove (h : i < l.length) : (l.swapRemove i h).length = l.length - 1 := by
  simp [swapRemove]

theorem getElem?_swapRemove (h : i < l.length) (j : ℕ) :
    (l.swapRemove i h)[j]? = if j < l.length - 1 then (if j = i then l[l.length - 1]? else l[j]?) else none := by
  rw [swapRemove, getElem?_dropLast, length_set, getElem?_set]
  by_cases hj : j < l.length - 1
  · by_cases hij : j = i
    · subst hij
      rw [if_pos hj, if_pos rfl, if_pos h, if_pos hj, if_pos rfl, getLast_eq_getElem,
        getElem?_eq_getElem (by omega)]
    · rw [if_pos hj, if_neg (Ne.symm hij), if_pos hj, if_neg hij]
  · rw [if_neg hj, if_neg hj]

/-- What was written at `i` goes with it. -/
theorem swapRemove_set_self {x : α} (h : i < (l.set i x).length) :
    (l.set i x).swapRemove i h = l.swapRemove i (by simpa using h) := by
  apply ext_getElem?
  intro j
  rw [getElem?_swapRemove, getElem?_swapRemove, length_set]
  by_cases hj : j < l.length - 1
  · by_cases hij : j = i
    · rw [if_pos hj, if_pos hij, if_pos hj, if_pos hij, getElem?_set_ne (by omega)]
    · rw [if_pos hj, if_neg hij, if_pos hj, if_neg hij, getElem?_set_ne (Ne.symm hij)]
  · rw [if_neg hj, if_neg hj]

/-- Writing at `i` a value that `f` does not tell from the one there keeps
`f` at every position. -/
theorem map_getElem?_set (f : α → β) {x : α} (hx : l[i]?.map f = some (f x)) (j : ℕ) :
    (l.set i x)[j]?.map f = l[j]?.map f := by
  rw [getElem?_set]
  split_ifs with hij hi
  · subst hij
    rw [hx, Option.map_some]
  · subst hij
    rw [getElem?_eq_none (by omega), Option.map_none] at hx
    cases hx
  · rfl

theorem map_swapRemove (f : α → β) (h : i < l.length) :
    (l.swapRemove i h).map f = (l.map f).swapRemove i (by rw [length_map]; exact h) := by
  apply ext_getElem?
  intro j
  rw [getElem?_map, getElem?_swapRemove, getElem?_swapRemove, length_map]
  split_ifs <;> simp

/-- **Where each element is after `swap_remove`**, in a list without
repeats: the last element is at `i` (if it was not the one removed), the one
removed is nowhere, and every other element is where it was. -/
theorem getElem?_swapRemove_eq_some_iff (hnd : l.Nodup) (h : i < l.length) (x : α) (j : ℕ) :
    (l.swapRemove i h)[j]? = some x ↔
      ((l.swapRemove i h)[i]? = some x ∧ j = i) ∨
        ((l.swapRemove i h)[i]? ≠ some x ∧ l[i]? ≠ some x ∧ l[j]? = some x) := by
  have hpos := nodup_iff_getElem?_ne_getElem?.1 hnd
  -- two positions holding `x` are one
  have hinj : ∀ j k : ℕ, l[j]? = some x → l[k]? = some x → j = k := by
    intro j k hj hk
    by_contra hjk
    rcases Nat.lt_or_gt_of_ne hjk with hlt | hlt
    · exact hpos j k hlt (getElem?_eq_some_iff.1 hk).1 (hj.trans hk.symm)
    · exact hpos k j hlt (getElem?_eq_some_iff.1 hj).1 (hk.trans hj.symm)
  constructor
  · intro hj
    rw [getElem?_swapRemove] at hj
    split_ifs at hj with hjn hji
    · subst hji
      exact Or.inl ⟨by rw [getElem?_swapRemove, if_pos hjn, if_pos rfl]; exact hj, rfl⟩
    · refine Or.inr ⟨fun hP => ?_, fun hx => hji (hinj j i hj hx), hj⟩
      rw [getElem?_swapRemove] at hP
      split_ifs at hP with hin hii
      · exact absurd (hinj j (l.length - 1) hj hP) (by omega)
      · exact absurd rfl hii
  · rintro (⟨hP, rfl⟩ | ⟨hP, hx, hj⟩)
    · exact hP
    · have hji : j ≠ i := by
        rintro rfl
        exact hx hj
      have hjl : j < l.length := (getElem?_eq_some_iff.1 hj).1
      -- the last position has moved to `i`, where `x` is not
      have hjn : j < l.length - 1 := by
        by_contra hjn
        have hlast : j = l.length - 1 := by omega
        apply hP
        rw [getElem?_swapRemove, if_pos (by omega), if_pos rfl, ← hlast]
        exact hj
      rw [getElem?_swapRemove, if_pos hjn, if_neg hji]
      exact hj

/-- The element removed and the list left are the list, reordered. -/
theorem perm_swapRemove (h : i < l.length) : l[i] :: l.swapRemove i h ~ l := by
  have hne : l ≠ [] := ne_nil_of_length_pos (by omega)
  have hne' : l.set i (l.getLast hne) ≠ [] := by simpa using hne
  -- setting `i` to the last element leaves that element last
  have hlast : (l.set i (l.getLast hne)).getLast hne' = l.getLast hne := by
    rw [getLast_eq_getElem, getElem_set]
    split_ifs
    · rfl
    · simp [getLast_eq_getElem]
  have hsplit : l.swapRemove i h ++ [l.getLast hne] = l.set i (l.getLast hne) := by
    have hconcat := dropLast_concat_getLast hne'
    rw [hlast] at hconcat
    exact hconcat
  have hrest : l.swapRemove i h ~ l.eraseIdx i := by
    refine (perm_cons (l.getLast hne)).1 ?_
    calc l.getLast hne :: l.swapRemove i h ~ l.swapRemove i h ++ [l.getLast hne] := (perm_append_singleton _ _).symm
      _ = l.set i (l.getLast hne) := hsplit
      _ ~ l.getLast hne :: l.eraseIdx i := set_perm_cons_eraseIdx h _
  exact (hrest.cons l[i]).trans (getElem_cons_eraseIdx_perm h)

/-- A sum over the list after `swap_remove` lacks the removed element's term. -/
theorem sum_map_swapRemove_add {M : Type*} [AddCommMonoid M] (f : α → M) (h : i < l.length) :
    ((l.swapRemove i h).map f).sum + f l[i] = (l.map f).sum := by
  rw [← ((perm_swapRemove h).map f).sum_eq, map_cons, sum_cons, add_comm]

/-- Writing `x` at `i` changes a sum over the list by `x`'s term for `l[i]`'s. -/
theorem sum_map_set_add {M : Type*} [AddCommMonoid M] (f : α → M) (h : i < l.length) (x : α) :
    ((l.set i x).map f).sum + f l[i] = (l.map f).sum + f x := by
  rw [((set_perm_cons_eraseIdx h x).map f).sum_eq, ← ((getElem_cons_eraseIdx_perm h).map f).sum_eq]
  simp only [map_cons, sum_cons]
  ac_rfl

end List
