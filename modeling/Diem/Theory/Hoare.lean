import Mathlib

/-!
# Weakest preconditions of stateful fallible code

A method on `&mut self` returning `Result` is a computation in
`EStateM ε σ`: it runs from a state and either succeeds with a value or
fails with an error, and in both cases leaves a state behind (Rust keeps the
mutations made before an early return).

`wp x Q R s` says: run from `s`, `x` succeeds with a value `a` and a state
satisfying `Q a`, or fails with `e` and a state satisfying `R e`. The rules
below push `wp` through `do` blocks (`pure`, `throw`, `>>=`, `if`, state
access), so that symbolic execution of a method is `simp` with these rules,
and a call is discharged by the callee's own `wp` lemma instead of its body.
`zoom` runs a computation on one field of the state, as a method called
through `&mut self.field` does.
-/

namespace EStateM

universe u

variable {ε σ τ α β : Type u}

/-- The weakest precondition of `x` for the success postcondition `Q` and the
failure postcondition `R`, at the state `s`. -/
def wp (x : EStateM ε σ α) (Q : α → σ → Prop) (R : ε → σ → Prop) (s : σ) : Prop :=
  match x.run s with
  | .ok a s' => Q a s'
  | .error e s' => R e s'

/-- Run a computation on one component of the state. -/
def zoom (get : σ → τ) (set : σ → τ → σ) (x : EStateM ε τ α) : EStateM ε σ α := fun s =>
  match x (get s) with
  | .ok a t => .ok a (set s t)
  | .error e t => .error e (set s t)

variable {Q Q' : α → σ → Prop} {R R' : ε → σ → Prop} {s : σ}

/-! ### Symbolic execution

The rules for sequencing are equations between predicates on states, so that
they also rewrite a `wp` under a binder, where it stands without its state;
a branch is taken once the state is there. -/

@[simp] theorem wp_pure (a : α) : wp (pure a : EStateM ε σ α) Q R = Q a := rfl

@[simp] theorem wp_throw (e : ε) : wp (throw e : EStateM ε σ α) Q R = R e := rfl

@[simp] theorem wp_get {Q : σ → σ → Prop} : wp (get : EStateM ε σ σ) Q R = fun s => Q s s := rfl

@[simp] theorem wp_set {Q : PUnit → σ → Prop} (s' : σ) :
    wp (set s' : EStateM ε σ PUnit) Q R = fun _ => Q ⟨⟩ s' := rfl

@[simp] theorem wp_modify {Q : PUnit → σ → Prop} (f : σ → σ) :
    wp (modify f : EStateM ε σ PUnit) Q R = fun s => Q ⟨⟩ (f s) := rfl

@[simp] theorem wp_bind (x : EStateM ε σ α) (f : α → EStateM ε σ β) {Q : β → σ → Prop} :
    wp (x >>= f) Q R = wp x (fun a => wp (f a) Q R) R := by
  funext s
  unfold wp
  rw [EStateM.run_bind]
  cases x.run s <;> rfl

@[simp] theorem wp_ite {c : Prop} [Decidable c] (x y : EStateM ε σ α) :
    wp (if c then x else y) Q R s = if c then wp x Q R s else wp y Q R s := by
  split <;> rfl

@[simp] theorem wp_liftExcept (x : Except ε α) :
    wp (liftExcept x : EStateM ε σ α) Q R = fun s => match x with
      | .ok a => Q a s
      | .error e => R e s := by
  cases x <;> rfl

@[simp] theorem wp_zoom {get : σ → τ} {set : σ → τ → σ} (x : EStateM ε τ α) :
    wp (zoom get set x) Q R = fun s => wp x (fun a t => Q a (set s t)) (fun e t => R e (set s t)) (get s) := by
  funext s
  unfold wp zoom EStateM.run
  dsimp only
  cases x (get s) <;> rfl

/-- `try`/`catch` without backtracking: the handler runs from the state the
failure left, as after a Rust `map_err` closure. -/
@[simp] theorem wp_tryCatch (x : EStateM ε σ α) (handle : ε → EStateM ε σ α) :
    wp (tryCatch x handle) Q R = wp x Q (fun e => wp (handle e) Q R) := by
  funext s
  unfold wp
  change (match EStateM.tryCatch x handle s with
    | .ok a s' => Q a s'
    | .error e s' => R e s') = _
  simp only [EStateM.tryCatch, EStateM.run, Backtrackable.restore, EStateM.dummyRestore]
  cases x s <;> rfl

/-! ### Reasoning with `wp` -/

/-- Every computation ends in some state, with a value or an error. -/
theorem wp_true (x : EStateM ε σ α) (s : σ) : wp x (fun _ _ => True) (fun _ _ => True) s := by
  unfold wp
  cases x.run s <;> trivial

/-- Consequence: weaken both postconditions. -/
theorem wp_mono {x : EStateM ε σ α} (h : wp x Q R s) (hQ : ∀ a s', Q a s' → Q' a s')
    (hR : ∀ e s', R e s' → R' e s') : wp x Q' R' s := by
  unfold wp at h ⊢
  cases hx : x.run s with
  | ok a s' => rw [hx] at h; exact hQ a s' h
  | error e s' => rw [hx] at h; exact hR e s' h

/-- A `?` on a `Result`: its failure is a failure of the whole, its success
continues. -/
theorem wp_liftExcept_of {x : Except ε α} (herr : ∀ e, x = .error e → R e s)
    (hok : ∀ a, x = .ok a → Q a s) : wp (liftExcept x : EStateM ε σ α) Q R s := by
  cases x with
  | error e => exact herr e rfl
  | ok a => exact hok a rfl

/-- **Loop rule** for `for x in xs { f(x)? }`: an invariant indexed by a fold
over the elements done so far, which each iteration advances by `g`. -/
theorem wp_forM {γ : Type*} {f : β → EStateM ε σ PUnit} (I : γ → σ → Prop) (g : γ → β → γ)
    (xs : List β) (hstep : ∀ b x s, x ∈ xs → I b s → wp (f x) (fun _ => I (g b x)) R s) :
    ∀ b {s}, I b s → wp (xs.forM f) (fun _ => I (xs.foldl g b)) R s := by
  induction xs with
  | nil => intro b s h; exact h
  | cons x xs ih =>
    intro b s h
    change wp (f x >>= fun _ => xs.forM f) _ R s
    rw [wp_bind]
    refine wp_mono (hstep b x s List.mem_cons_self h) (fun _ s' h' => ?_) (fun _ _ h => h)
    exact ih (fun b y s hy => hstep b y s (List.mem_cons_of_mem x hy)) (g b x) h'

/-- A sequence that succeeds: its first part succeeded, and the rest did from
where it left. -/
theorem run_bind_eq_ok {x : EStateM ε σ α} {f : α → EStateM ε σ β} {b : β} {s s'' : σ}
    (h : (x >>= f).run s = .ok b s'') : ∃ a s', x.run s = .ok a s' ∧ (f a).run s' = .ok b s'' := by
  rw [run_bind] at h
  cases hx : x.run s with
  | ok a s' => rw [hx] at h; exact ⟨a, s', rfl, h⟩
  | error e s' => rw [hx] at h; cases h

theorem of_wp_ok {x : EStateM ε σ α} (h : wp x Q R s) {a : α} {s' : σ}
    (hx : x.run s = .ok a s') : Q a s' := by
  unfold wp at h
  rwa [hx] at h

theorem of_wp_error {x : EStateM ε σ α} (h : wp x Q R s) {e : ε} {s' : σ}
    (hx : x.run s = .error e s') : R e s' := by
  unfold wp at h
  rwa [hx] at h

end EStateM
