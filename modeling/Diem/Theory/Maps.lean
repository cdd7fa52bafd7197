import Mathlib.Data.List.AList

/-!
# Inserting into a map where a key is absent

Rust's `map.entry(k).or_insert(v)` keeps the value already stored at `k` and
stores `v` only when `k` is absent; `map.insert(k, v)` replaces. Over
`AList`, the second is `AList.insert`, and the first is `orInsert`. A value
once stored by `orInsert` is never replaced: that is `lookup_orInsert_of_lookup`.

`retain` keeps the entries satisfying a predicate, as `HashMap::retain` does.

The sizes of a map after `insert` and `erase`, and after erasing a list of
keys one after the other, count the keys that were there.
-/

namespace AList

variable {α : Type*} [DecidableEq α] {β : α → Type*}

/-- `entry(a).or_insert(b)`: insert `b` at `a` unless `a` is already a key. -/
def orInsert (a : α) (b : β a) (s : AList β) : AList β := if a ∈ s then s else s.insert a b

@[simp] theorem mem_orInsert {a c : α} {b : β a} {s : AList β} : c ∈ s.orInsert a b ↔ c = a ∨ c ∈ s := by
  unfold orInsert
  split
  · constructor
    · exact Or.inr
    · rintro (rfl | h) <;> assumption
  · exact mem_insert s

theorem lookup_orInsert_of_mem {a c : α} {b : β a} {s : AList β} (h : c ∈ s) :
    (s.orInsert a b).lookup c = s.lookup c := by
  unfold orInsert
  split
  · rfl
  · rename_i ha
    have hca : c ≠ a := by
      rintro rfl
      exact ha h
    exact lookup_insert_ne hca

@[simp] theorem lookup_orInsert_ne {a c : α} {b : β a} {s : AList β} (h : c ≠ a) :
    (s.orInsert a b).lookup c = s.lookup c := by
  unfold orInsert
  split
  · rfl
  · exact lookup_insert_ne h

theorem lookup_orInsert_of_notMem {a : α} {b : β a} {s : AList β} (h : a ∉ s) :
    (s.orInsert a b).lookup a = some b := by
  simp only [orInsert, h, if_false, lookup_insert]

/-- A value stored before is still stored. -/
theorem lookup_orInsert_of_lookup {a c : α} {b : β a} {s : AList β} {x : β c} (h : s.lookup c = some x) :
    (s.orInsert a b).lookup c = some x := by
  rw [lookup_orInsert_of_mem (lookup_isSome.1 (by simp [h])), h]

/-! ### Keeping the entries that satisfy a predicate -/

/-- `retain(p)`: the entries whose key and value satisfy `p`. -/
def retain (p : (a : α) → β a → Bool) (s : AList β) : AList β :=
  ⟨s.entries.filter fun e => p e.1 e.2, s.nodupKeys.sublist List.filter_sublist⟩

theorem lookup_retain (p : (a : α) → β a → Bool) (s : AList β) (a : α) :
    (s.retain p).lookup a = (s.lookup a).filter (p a) := by
  refine Option.ext fun b => ?_
  rw [Option.filter_eq_some_iff, ← Option.mem_def, ← Option.mem_def, mem_lookup_iff, mem_lookup_iff]
  simp [retain]

/-! ### Sizes -/

theorem length_entries {γ : Type*} {δ : γ → Type*} (s : AList δ) : s.entries.length = s.keys.length := by
  simp [keys, List.keys]

theorem length_keys_insert (s : AList β) (a : α) (b : β a) :
    (s.insert a b).keys.length = if a ∈ s then s.keys.length else s.keys.length + 1 := by
  simp only [keys_insert, List.length_cons, List.length_erase, mem_keys]
  split_ifs with h
  · have := List.length_pos_of_mem (mem_keys.2 h)
    omega
  · rfl

theorem length_keys_erase (s : AList β) (a : α) :
    (s.erase a).keys.length = if a ∈ s then s.keys.length - 1 else s.keys.length := by
  simp only [keys_erase, List.length_erase, mem_keys]

theorem lookup_erase_eq_ite (a c : α) (s : AList β) :
    (s.erase a).lookup c = if c = a then none else s.lookup c := by
  split_ifs with h
  · rw [h, lookup_erase]
  · exact lookup_erase_ne h

/-- Erasing keys one after the other. -/
theorem lookup_foldl_erase (a : α) :
    ∀ (ks : List α) (s : AList β), (ks.foldl (fun s k => s.erase k) s).lookup a = if a ∈ ks then none else s.lookup a := by
  intro ks
  induction ks with
  | nil => intro s; rfl
  | cons k ks ih =>
    intro s
    rw [List.foldl_cons, ih, lookup_erase_eq_ite]
    by_cases hk : a = k <;> simp [hk]

/-- Erasing distinct keys of a map removes one entry each. -/
theorem length_keys_foldl_erase :
    ∀ (ks : List α) (s : AList β), ks.Nodup → (∀ k ∈ ks, k ∈ s) →
      (ks.foldl (fun s k => s.erase k) s).keys.length = s.keys.length - ks.length := by
  intro ks
  induction ks with
  | nil => intro s _ _; rfl
  | cons k ks ih =>
    intro s hnd hmem
    rw [List.nodup_cons] at hnd
    have hrest : ∀ k' ∈ ks, k' ∈ s.erase k := fun k' hk' =>
      mem_erase.2 ⟨fun h => hnd.1 (h ▸ hk'), hmem k' (List.mem_cons_of_mem _ hk')⟩
    rw [List.foldl_cons, ih (s.erase k) hnd.2 hrest, length_keys_erase, if_pos (hmem k List.mem_cons_self),
      List.length_cons]
    omega

end AList
