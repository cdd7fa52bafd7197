import Diem.Theory.Runs
import Mathlib.Data.Set.Insert

/-!
# A set under insertions and removals

A component that keeps a set and is told, one request at a time, to insert
or to remove an element. After any run from the empty set an element is in
the set exactly when some request inserted it and no later request removed
it (`mem_final_iff`). A component that stores the set some other way is
shown to keep this meaning by relating its states to these
(`Mealy.rel_final`).
-/

namespace SetHistory

variable {α : Type*}

/-- A request: insert or remove one element. -/
inductive Op (α : Type*) where
  /-- Insert the element. -/
  | insert (a : α)
  /-- Remove the element. -/
  | remove (a : α)
  deriving DecidableEq

/-- The set after one request; the answer is `()`. -/
def step (S : Set α) : Op α → Unit × Set α
  | .insert a => ((), insert a S)
  | .remove a => ((), S \ {a})

/-- The ways a request list ending in `x` splits around a `y`: at `x`
itself, or before it. -/
theorem append_singleton_eq_iff {ops pre post : List (Op α)} {x y : Op α} :
    ops ++ [x] = pre ++ y :: post ↔
      (post = [] ∧ ops = pre ∧ x = y) ∨ ∃ post', post = post' ++ [x] ∧ ops = pre ++ y :: post' := by
  constructor
  · intro h
    rcases List.eq_nil_or_concat post with rfl | ⟨post', z, rfl⟩
    · obtain ⟨hops, hx⟩ := List.append_inj' h rfl
      exact Or.inl ⟨rfl, hops, List.singleton_inj.1 hx⟩
    · rw [List.concat_eq_append, ← List.cons_append, ← List.append_assoc] at h
      obtain ⟨hops, hx⟩ := List.append_inj' h rfl
      obtain rfl := List.singleton_inj.1 hx
      exact Or.inr ⟨post', List.concat_eq_append, hops⟩
  · rintro (⟨rfl, rfl, rfl⟩ | ⟨post', rfl, rfl⟩)
    · rfl
    · simp

/-- **An element is in the set iff it was inserted and not removed since.** -/
theorem mem_final_iff (ops : List (Op α)) (a : α) :
    a ∈ Mealy.final step ∅ ops ↔ ∃ pre post, ops = pre ++ .insert a :: post ∧ .remove a ∉ post := by
  revert a
  refine Mealy.final_inv step
    (R := fun ops S => ∀ a, a ∈ S ↔ ∃ pre post, ops = pre ++ Op.insert a :: post ∧ Op.remove a ∉ post)
    (fun a => ⟨fun h => absurd h (Set.notMem_empty a), fun ⟨pre, post, h, _⟩ => by simp at h⟩) ?_ ops
  intro ops S op ih a
  cases op with
  | insert b =>
    simp only [step, Set.mem_insert_iff, ih, append_singleton_eq_iff]
    constructor
    · rintro (rfl | ⟨pre, post, rfl, hpost⟩)
      · exact ⟨ops, [], Or.inl ⟨rfl, rfl, rfl⟩, List.not_mem_nil⟩
      · exact ⟨pre, post ++ [.insert b], Or.inr ⟨post, rfl, rfl⟩, by simp [hpost]⟩
    · rintro ⟨pre, post, ⟨rfl, rfl, h⟩ | ⟨post', rfl, rfl⟩, hpost⟩
      · exact Or.inl (Op.insert.inj h).symm
      · exact Or.inr ⟨pre, post', rfl, fun h => hpost (List.mem_append_left _ h)⟩
  | remove b =>
    simp only [step, Set.mem_sdiff, Set.mem_singleton_iff, ih, append_singleton_eq_iff]
    constructor
    · rintro ⟨⟨pre, post, rfl, hpost⟩, hab⟩
      exact ⟨pre, post ++ [.remove b], Or.inr ⟨post, rfl, rfl⟩, by simp [hpost, hab]⟩
    · rintro ⟨pre, post, ⟨rfl, rfl, h⟩ | ⟨post', rfl, rfl⟩, hpost⟩
      · cases h
      · refine ⟨⟨pre, post', rfl, fun h => hpost (List.mem_append_left _ h)⟩, ?_⟩
        rintro rfl
        exact hpost (List.mem_append_right _ (List.mem_singleton_self _))

end SetHistory
