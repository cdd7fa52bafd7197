import Mathlib.Logic.Relation
import Mathlib.Data.List.Pairwise
import Mathlib.Data.List.Induction
import Mathlib.Algebra.Order.Monoid.Defs

/-!
# Runs of a deterministic machine with outputs

A component that answers requests one at a time is a function
`step : S → I → O × S`: from state `s`, request `i` gets the answer
`(step s i).1` and leaves the component in `(step s i).2`. Whatever the
component's environment decides (a failed disk write, the clock) is part of
its state, so one function describes every run.

A *run* from `s` on requests `is` is the list of its transitions
(`trace`), each recording the state before, the request, the answer and the
state after. Properties of a whole run are of two shapes:

* an *invariant* of the states (`Reachable`, `reachable_inv`), and
* a relation between every earlier and every later transition
  (`pairwise_trace`), proved from a *summary*: a predicate saying what the
  current state still remembers of a past transition.

Two machines on the same requests answer alike on every run when a relation
between their states, kept by each pair of steps, makes them answer alike
(`map_output_trace_eq`).

A quantity of the state that each step changes by what comes in less what
goes out is conserved over the run (`sum_trace_conservation`), and one that
each step raises by at most that is bounded over the run (`sum_trace_le`).

Nothing here is specific to one program.
-/

namespace Mealy

variable {S I O : Type*}

/-- One transition of a run: the state before, the request, the answer and the
state after. -/
structure Transition (S I O : Type*) where
  /-- The state before the request. -/
  pre : S
  /-- The request. -/
  input : I
  /-- The answer. -/
  output : O
  /-- The state after the request. -/
  post : S

variable (step : S → I → O × S)

/-- The transition `step` makes from `s` on `i`. -/
def transition (s : S) (i : I) : Transition S I O := ⟨s, i, (step s i).1, (step s i).2⟩

/-- The transitions of the run from `s` on the requests `is`, in order. -/
def trace : S → List I → List (Transition S I O)
  | _, [] => []
  | s, i :: is => transition step s i :: trace (step s i).2 is

/-- The state the run from `s` on `is` ends in. -/
def final : S → List I → S
  | s, [] => s
  | s, i :: is => final (step s i).2 is

@[simp] theorem trace_nil (s : S) : trace step s [] = [] := rfl

@[simp] theorem trace_cons (s : S) (i : I) (is : List I) :
    trace step s (i :: is) = transition step s i :: trace step (step s i).2 is := rfl

@[simp] theorem transition_pre (s : S) (i : I) : (transition step s i).pre = s := rfl

@[simp] theorem transition_input (s : S) (i : I) : (transition step s i).input = i := rfl

@[simp] theorem transition_output (s : S) (i : I) : (transition step s i).output = (step s i).1 := rfl

@[simp] theorem transition_post (s : S) (i : I) : (transition step s i).post = (step s i).2 := rfl

/-- `s'` is reachable from `s` by some requests. -/
def Reachable (s s' : S) : Prop := Relation.ReflTransGen (fun a b => ∃ i, (step a i).2 = b) s s'

/-- A predicate preserved by every request holds of every state reachable from one
where it holds. -/
theorem reachable_inv {Inv : S → Prop} (hstep : ∀ s i, Inv s → Inv (step s i).2) {s s' : S}
    (hr : Reachable step s s') (hs : Inv s) : Inv s' := by
  induction hr with
  | refl => exact hs
  | tail _ hab ih =>
    obtain ⟨i, rfl⟩ := hab
    exact hstep _ i ih

@[simp] theorem final_nil (s : S) : final step s [] = s := rfl

theorem final_append (s : S) (is js : List I) : final step s (is ++ js) = final step (final step s is) js := by
  induction is generalizing s with
  | nil => rfl
  | cons i is ih => exact ih _

/-- A relation between the requests so far and the state that holds at the
start and is preserved by each request holds after every run. -/
theorem final_inv {R : List I → S → Prop} {s : S} (h0 : R [] s)
    (hstep : ∀ is t i, R is t → R (is ++ [i]) (step t i).2) : ∀ is, R is (final step s is) := by
  intro is
  induction is using List.reverseRecOn with
  | nil => exact h0
  | append_singleton is i ih =>
    rw [final_append]
    exact hstep is _ i ih

theorem reachable_final (s : S) (is : List I) : Reachable step s (final step s is) := by
  induction is generalizing s with
  | nil => exact Relation.ReflTransGen.refl
  | cons i is ih => exact Relation.ReflTransGen.head ⟨i, rfl⟩ (ih _)

/-- Every transition of a run starts in a state reachable from the run's start. -/
theorem reachable_of_mem_trace {s : S} {is : List I} {t : Transition S I O}
    (ht : t ∈ trace step s is) : Reachable step s t.pre ∧ t.post = (step t.pre t.input).2 ∧
      t.output = (step t.pre t.input).1 := by
  induction is generalizing s with
  | nil => simp at ht
  | cons i is ih =>
    rcases List.mem_cons.1 ht with rfl | ht
    · exact ⟨Relation.ReflTransGen.refl, rfl, rfl⟩
    · obtain ⟨hr, hpost, hout⟩ := ih ht
      exact ⟨Relation.ReflTransGen.head ⟨i, rfl⟩ hr, hpost, hout⟩

/-- A property of single transitions from states satisfying `Inv` holds of every
transition of a run from such a state. `Inv` may depend on the requests still to
come, such as a budget they must fit in. -/
theorem forall_trace_of_remaining {Inv : S → List I → Prop} {P : Transition S I O → Prop}
    (hstep : ∀ s i is, Inv s (i :: is) → Inv (step s i).2 is)
    (hP : ∀ s i is, Inv s (i :: is) → P (transition step s i)) :
    ∀ {s : S} {is : List I}, Inv s is → ∀ t ∈ trace step s is, P t := by
  intro s is
  induction is generalizing s with
  | nil => intro _ t ht; simp at ht
  | cons i is ih =>
    intro hs t ht
    rcases List.mem_cons.1 ht with rfl | ht
    · exact hP s i is hs
    · exact ih (hstep s i is hs) t ht

/-- The same with an invariant of the state alone. -/
theorem forall_trace {Inv : S → Prop} {P : Transition S I O → Prop}
    (hstep : ∀ s i, Inv s → Inv (step s i).2) (hP : ∀ s i, Inv s → P (transition step s i)) :
    ∀ {s : S} {is : List I}, Inv s → ∀ t ∈ trace step s is, P t := by
  intro s is hs
  exact @forall_trace_of_remaining S I O step (fun s _ => Inv s) P (fun s i _ => hstep s i) (fun s i _ => hP s i)
    s is hs

section History

/-! ### Invariants of the history

A relation between the transitions made so far and the current state, true at
the start and kept by each step, holds at every transition of a run between the
transitions before it and the state it starts from. A property of a transition
that refers to earlier ones (a value read then, a record stored since) is
proved this way. -/

variable {R : List (Transition S I O) → S → Prop}

theorem history_inv_append (hstep : ∀ hist s i, R hist s → R (hist ++ [transition step s i]) (step s i).2) :
    ∀ {is : List I} {hist : List (Transition S I O)} {s : S} {before after : List (Transition S I O)}
      {t : Transition S I O}, R hist s → trace step s is = before ++ t :: after → R (hist ++ before) t.pre := by
  intro is
  induction is with
  | nil =>
    intro hist s before after t _ h
    simp at h
  | cons i is ih =>
    intro hist s before after t hR h
    cases before with
    | nil =>
      simp only [trace_cons, List.nil_append, List.cons.injEq] at h
      rw [← h.1, List.append_nil]
      exact hR
    | cons b before =>
      simp only [trace_cons, List.cons_append, List.cons.injEq] at h
      obtain ⟨rfl, h⟩ := h
      simpa using ih (hstep hist s i hR) h

/-- **History invariant**: at each transition of a run, the relation holds of
the transitions before it and the state it starts from. -/
theorem history_inv {s : S} (h0 : R [] s)
    (hstep : ∀ hist s i, R hist s → R (hist ++ [transition step s i]) (step s i).2)
    {is : List I} {before after : List (Transition S I O)} {t : Transition S I O}
    (h : trace step s is = before ++ t :: after) : R before t.pre := by
  simpa using history_inv_append step hstep h0 h

end History

section Summary

/-! ### Relations between earlier and later transitions

`Q t s` says what state `s` still remembers of the past transition `t`. If every
transition is remembered by the state it leaves, memories survive later
requests, and a remembered transition stands in `R` to every later one, then
`R` holds between every earlier and every later transition of a run. -/

variable {Inv : S → Prop} {Q : Transition S I O → S → Prop}
  {R : Transition S I O → Transition S I O → Prop}

theorem forall_trace_of_summary
    (hstep : ∀ s i, Inv s → Inv (step s i).2)
    (hkeep : ∀ t s i, Inv s → Q t s → Q t (step s i).2)
    (hrel : ∀ t s i, Inv s → Q t s → R t (transition step s i))
    {t : Transition S I O} : ∀ {s : S} {is : List I}, Inv s → Q t s → ∀ t' ∈ trace step s is, R t t' := by
  intro s is
  induction is generalizing s with
  | nil => intro _ _ t' ht'; simp at ht'
  | cons i is ih =>
    intro hs hq t' ht'
    rcases List.mem_cons.1 ht' with rfl | ht'
    · exact hrel t s i hs hq
    · exact ih (hstep s i hs) (hkeep t s i hs hq) t' ht'

/-- **Run relations from a summary**: `R` holds between every earlier and every
later transition of a run from a state satisfying `Inv`. -/
theorem pairwise_trace
    (hstep : ∀ s i, Inv s → Inv (step s i).2)
    (hnew : ∀ s i, Inv s → Q (transition step s i) (step s i).2)
    (hkeep : ∀ t s i, Inv s → Q t s → Q t (step s i).2)
    (hrel : ∀ t s i, Inv s → Q t s → R t (transition step s i)) :
    ∀ {s : S} {is : List I}, Inv s → (trace step s is).Pairwise R := by
  intro s is
  induction is generalizing s with
  | nil => intro _; exact List.Pairwise.nil
  | cons i is ih =>
    intro hs
    refine List.Pairwise.cons ?_ (ih (hstep s i hs))
    exact forall_trace_of_summary step hstep hkeep hrel (hstep s i hs) (hnew s i hs)

end Summary

/-- A transitive relation that holds between the states before and after each
request holds between the states after any transition of a run and after any
later one. -/
theorem pairwise_trace_of_trans {Inv : S → Prop} {r : S → S → Prop} (htrans : ∀ a b c, r a b → r b c → r a c)
    (hstep : ∀ s i, Inv s → Inv (step s i).2) (hr : ∀ s i, Inv s → r s (step s i).2) :
    ∀ {s : S} {is : List I}, Inv s → (trace step s is).Pairwise (fun t t' => r t.post t'.post) :=
  pairwise_trace (Q := fun t s => r t.post s ∨ t.post = s) step hstep
    (fun _ _ _ => Or.inr rfl)
    (fun t s i hs hq => by
      rcases hq with hq | rfl
      · exact Or.inl (htrans _ _ _ hq (hr s i hs))
      · exact Or.inl (hr _ i hs))
    (fun t s i hs hq => by
      rcases hq with hq | rfl
      · exact htrans _ _ _ hq (hr s i hs)
      · exact hr _ i hs)

section Admitted

/-! ### Runs on admitted requests

When an invariant is kept only by some requests (those whose data is well
formed), the run lemmas hold of runs made of those requests. -/

variable {P : I → Prop} {Inv : S → Prop} {r : S → S → Prop}

/-- A transitive relation between the states before and after each admitted
request holds between the start of a run and the state after any of its
transitions. -/
theorem rel_post_of_mem_trace (htrans : ∀ a b c, r a b → r b c → r a c)
    (hstep : ∀ s i, P i → Inv s → Inv (step s i).2) (hr : ∀ s i, P i → Inv s → r s (step s i).2) :
    ∀ {s : S} {is : List I}, Inv s → (∀ i ∈ is, P i) → ∀ t ∈ trace step s is, r s t.post := by
  intro s is
  induction is generalizing s with
  | nil => intro _ _ t ht; simp at ht
  | cons i is ih =>
    intro hs hP t ht
    have hi : P i := hP i List.mem_cons_self
    rcases List.mem_cons.1 ht with rfl | ht
    · exact hr s i hi hs
    · exact htrans _ _ _ (hr s i hi hs)
        (ih (hstep s i hi hs) (fun j hj => hP j (List.mem_cons_of_mem i hj)) t ht)

/-- `pairwise_trace_of_trans` for runs of admitted requests. -/
theorem pairwise_trace_of_trans_of_forall (htrans : ∀ a b c, r a b → r b c → r a c)
    (hstep : ∀ s i, P i → Inv s → Inv (step s i).2) (hr : ∀ s i, P i → Inv s → r s (step s i).2) :
    ∀ {s : S} {is : List I}, Inv s → (∀ i ∈ is, P i) →
      (trace step s is).Pairwise (fun t t' => r t.post t'.post) := by
  intro s is
  induction is generalizing s with
  | nil => intro _ _; exact List.Pairwise.nil
  | cons i is ih =>
    intro hs hP
    have hi : P i := hP i List.mem_cons_self
    have hP' : ∀ j ∈ is, P j := fun j hj => hP j (List.mem_cons_of_mem i hj)
    refine List.Pairwise.cons ?_ (ih (hstep s i hi hs) hP')
    intro t' ht'
    exact rel_post_of_mem_trace step htrans hstep hr (hstep s i hi hs) hP' t' ht'

end Admitted

section Simulation

/-! ### Two machines that answer alike

A relation between the states of two machines on the same requests that each
pair of steps keeps, and under which the two give the same answer, makes them
give the same answers on every run: the one machine refines the other as far
as anything outside them can tell. -/

variable {S' : Type*} (step' : S' → I → O × S') {r : S → S' → Prop}

/-- **Runs of related states answer alike.** -/
theorem map_output_trace_eq (hout : ∀ s s' i, r s s' → (step s i).1 = (step' s' i).1)
    (hstep : ∀ s s' i, r s s' → r (step s i).2 (step' s' i).2) :
    ∀ {s : S} {s' : S'} (is : List I), r s s' →
      (trace step s is).map Transition.output = (trace step' s' is).map Transition.output := by
  intro s s' is
  induction is generalizing s s' with
  | nil => intro _; rfl
  | cons i is ih =>
    intro h
    simp only [trace_cons, List.map_cons, transition_output]
    rw [hout s s' i h, ih (hstep s s' i h)]

/-- Related states stay related to the end of runs on the same requests. -/
theorem rel_final (hstep : ∀ s s' i, r s s' → r (step s i).2 (step' s' i).2) :
    ∀ {s : S} {s' : S'} (is : List I), r s s' → r (final step s is) (final step' s' is) := by
  intro s s' is
  induction is generalizing s s' with
  | nil => exact id
  | cons i is ih => exact fun h => ih (hstep s s' i h)

end Simulation

/-- A quantity of a run's requests, read back from its transitions. -/
@[simp] theorem map_input_trace {α : Type*} (f : I → α) (s : S) (is : List I) :
    (trace step s is).map (fun t => f t.input) = is.map f := by
  induction is generalizing s with
  | nil => rfl
  | cons i is ih => simp [ih]

section Conservation

/-! ### A quantity kept by every step

A quantity `g` of the state that every step, from a state with `Inv`, changes
by what comes in (`inflow`) less what goes out (`outflow`): over a run, what
is there at the start and what comes in is what goes out and what is there at
the end. -/

variable {M : Type*} [AddCommMonoid M] {Inv : S → Prop} (g : S → M) (inflow outflow : Transition S I O → M)

theorem sum_trace_conservation (hinv : ∀ s i, Inv s → Inv (step s i).2)
    (hstep : ∀ s i, Inv s → g s + inflow (transition step s i) = outflow (transition step s i) + g (step s i).2) :
    ∀ {s : S} (is : List I), Inv s →
      g s + ((trace step s is).map inflow).sum = ((trace step s is).map outflow).sum + g (final step s is) := by
  intro s is
  induction is generalizing s with
  | nil => intro _; simp [add_comm]
  | cons i is ih =>
    intro hs
    simp only [trace_cons, List.map_cons, List.sum_cons]
    -- the first step moves its flows; the rest of the run moves the others
    rw [← add_assoc, hstep s i hs, add_assoc, ih (hinv s i hs), ← add_assoc]
    rfl

/-- A quantity that every step raises by at most what comes in less what
goes out: over a run, what is there at the end and what went out are at
most what was there at the start and what came in. -/
theorem sum_trace_le [PartialOrder M] [IsOrderedAddMonoid M] (hinv : ∀ s i, Inv s → Inv (step s i).2)
    (hstep : ∀ s i, Inv s → g (step s i).2 + outflow (transition step s i) ≤ g s + inflow (transition step s i)) :
    ∀ {s : S} (is : List I), Inv s →
      g (final step s is) + ((trace step s is).map outflow).sum ≤ g s + ((trace step s is).map inflow).sum := by
  intro s is
  induction is generalizing s with
  | nil => intro _; simp
  | cons i is ih =>
    intro hs
    simp only [trace_cons, List.map_cons, List.sum_cons]
    have hrest := ih (hinv s i hs)
    -- the rest of the run from the first step's state, then the first step
    calc g (final step (step s i).2 is) + (outflow (transition step s i) + ((trace step (step s i).2 is).map outflow).sum)
        = (g (final step (step s i).2 is) + ((trace step (step s i).2 is).map outflow).sum) +
            outflow (transition step s i) := by rw [add_left_comm, add_comm]
      _ ≤ (g (step s i).2 + ((trace step (step s i).2 is).map inflow).sum) + outflow (transition step s i) :=
          add_le_add hrest le_rfl
      _ = (g (step s i).2 + outflow (transition step s i)) + ((trace step (step s i).2 is).map inflow).sum := by
          rw [add_right_comm]
      _ ≤ (g s + inflow (transition step s i)) + ((trace step (step s i).2 is).map inflow).sum :=
          add_le_add (hstep s i hs) le_rfl
      _ = g s + (inflow (transition step s i) + ((trace step (step s i).2 is).map inflow).sum) := add_assoc _ _ _

end Conservation

end Mealy
