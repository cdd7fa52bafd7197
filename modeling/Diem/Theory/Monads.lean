import Mathlib.Logic.Basic

/-!
# Fallible computations

Rust's `?` on a `Result` is a bind in the `Except` monad. These are the
rewriting rules for running such code symbolically: a bind of a success
continues, a bind of a failure stops, and a chain of binds succeeds exactly
when each step does. `ErrorsAvoid` says which failures a computation cannot
end in, and composes over binds.
-/

namespace Except

universe u v

variable {ε ε' : Type u} {α β : Type v}

@[simp] theorem ok_bind (a : α) (f : α → Except ε β) : (Except.ok a >>= f) = f a := rfl

@[simp] theorem error_bind (e : ε) (f : α → Except ε β) : (Except.error e >>= f : Except ε β) = .error e := rfl

@[simp] theorem pure_eq_ok (a : α) : (pure a : Except ε α) = .ok a := rfl

@[simp] theorem throw_eq_error (e : ε) : (throw e : Except ε α) = .error e := rfl

@[simp] theorem mapError_ok (f : ε → ε') (a : α) : (Except.ok a : Except ε α).mapError f = .ok a := rfl

@[simp] theorem mapError_error (f : ε → ε') (e : ε) :
    (Except.error e : Except ε α).mapError f = .error (f e) := rfl

/-- Mapping the error changes no success. -/
@[simp] theorem mapError_eq_ok {x : Except ε α} {f : ε → ε'} {a : α} : x.mapError f = .ok a ↔ x = .ok a := by
  cases x <;> simp

/-- A bind succeeds exactly when both steps do. -/
theorem bind_eq_ok {x : Except ε α} {f : α → Except ε β} {b : β} :
    (x >>= f) = .ok b ↔ ∃ a, x = .ok a ∧ f a = .ok b := by
  cases x with
  | error e => simp
  | ok a => simp

/-- A fallible left fold whose every step succeeds with `g` computes the pure
fold `g`: a loop with `?` inside returns what the loop without the checks
would. -/
theorem foldlM_eq_ok {γ : Type*} {f : β → γ → Except ε β} {g : β → γ → β} :
    ∀ {l : List γ} {b : β}, (∀ b, ∀ c ∈ l, f b c = .ok (g b c)) → l.foldlM f b = .ok (l.foldl g b) := by
  intro l
  induction l with
  | nil => intro b _; rfl
  | cons c l ih =>
    intro b hf
    rw [List.foldlM_cons, hf b c List.mem_cons_self, ok_bind, List.foldl_cons]
    exact ih fun b c hc => hf b c (List.mem_cons_of_mem _ hc)

/-- A `collect::<Result<Vec<_>, _>>()` that succeeds: the entry at each index
is what the element there gave. -/
theorem mapM_eq_ok_getElem? {f : α → Except ε β} :
    ∀ {l : List α} {r : List β}, l.mapM f = .ok r → ∀ i : Nat, l[i]?.map f = r[i]?.map .ok := by
  intro l
  induction l with
  | nil =>
    intro r h i
    simp only [List.mapM_nil, pure_eq_ok, Except.ok.injEq] at h
    subst h
    rfl
  | cons x l ih =>
    intro r h i
    rw [List.mapM_cons, bind_eq_ok] at h
    obtain ⟨b, hb, h⟩ := h
    rw [bind_eq_ok] at h
    obtain ⟨rs, hrs, h⟩ := h
    simp only [pure_eq_ok, Except.ok.injEq] at h
    subst h
    cases i with
    | zero => simp [hb]
    | succ i => simpa using ih hrs i

theorem length_of_mapM_eq_ok {f : α → Except ε β} :
    ∀ {l : List α} {r : List β}, l.mapM f = .ok r → r.length = l.length := by
  intro l
  induction l with
  | nil =>
    intro r h
    simp only [List.mapM_nil, pure_eq_ok, Except.ok.injEq] at h
    subst h
    rfl
  | cons x l ih =>
    intro r h
    rw [List.mapM_cons, bind_eq_ok] at h
    obtain ⟨b, -, h⟩ := h
    rw [bind_eq_ok] at h
    obtain ⟨rs, hrs, h⟩ := h
    simp only [pure_eq_ok, Except.ok.injEq] at h
    subst h
    simp [ih hrs]

/-- A loop of checks (`for x in l { check(x)? }`) that succeeds passed every
check. -/
theorem forM_eq_ok {f : α → Except ε PUnit} : ∀ {l : List α}, l.forM f = .ok () → ∀ x ∈ l, f x = .ok ()
  | [], _, x, hx => absurd hx List.not_mem_nil
  | y :: l, h, x, hx => by
    simp only [List.forM] at h
    obtain ⟨u, hy, hl⟩ := bind_eq_ok.1 h
    rcases List.mem_cons.1 hx with rfl | hx
    · exact hy
    · exact forM_eq_ok hl x hx

/-- A `collect::<Result<Vec<_>, _>>()` whose every item succeeds collects the
successes. -/
theorem mapM_eq_ok_map {f : α → Except ε β} {g : α → β} :
    ∀ {l : List α}, (∀ x ∈ l, f x = .ok (g x)) → l.mapM f = .ok (l.map g)
  | [], _ => rfl
  | x :: l, h => by
    rw [List.mapM_cons, h x List.mem_cons_self, ok_bind,
      mapM_eq_ok_map fun y hy => h y (List.mem_cons_of_mem _ hy)]
    rfl

/-- Every error of a bind is an error of one of its steps. -/
theorem bind_eq_error {x : Except ε α} {f : α → Except ε β} {e : ε} :
    (x >>= f) = .error e ↔ x = .error e ∨ ∃ a, x = .ok a ∧ f a = .error e := by
  cases x with
  | error e' => simp
  | ok a => simp

/-- Mapping the value changes no failure. -/
theorem map_eq_error {f : α → β} {x : Except ε α} {e : ε} : f <$> x = .error e ↔ x = .error e := by
  cases x <;> simp [Functor.map, Except.map]

/-- `x` fails, if at all, with no error of kind `P`: a `Result` whose failures
of one kind (a panic, say) are ruled out. -/
def ErrorsAvoid (P : ε → Prop) (x : Except ε α) : Prop := ∀ e, x = .error e → ¬ P e

@[simp] theorem errorsAvoid_ok (P : ε → Prop) (a : α) : ErrorsAvoid P (Except.ok a : Except ε α) := by
  simp [ErrorsAvoid]

@[simp] theorem errorsAvoid_error {P : ε → Prop} {e : ε} : ErrorsAvoid P (Except.error e : Except ε α) ↔ ¬ P e := by
  simp [ErrorsAvoid]

/-- A bind avoids `P` when its first step does and so does every continuation
that step can reach. -/
theorem ErrorsAvoid.bind {P : ε → Prop} {x : Except ε α} {f : α → Except ε β} (hx : ErrorsAvoid P x)
    (hf : ∀ a, x = .ok a → ErrorsAvoid P (f a)) : ErrorsAvoid P (x >>= f) := by
  intro e he
  rcases bind_eq_error.1 he with he | ⟨a, ha, he⟩
  · exact hx e he
  · exact hf a ha e he

end Except
