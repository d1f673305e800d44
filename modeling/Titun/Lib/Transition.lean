import Mathlib.Tactic

/-! Runs of a labelled transition relation. -/
namespace Transition

/-- The steps labelled `labels`, one after the other, lead from the first state to the last. -/
inductive Run (step : σ → α → σ → Prop) : σ → List α → σ → Prop where
  | nil : Run step s [] s
  | cons : step s a next → Run step next labels last → Run step s (a :: labels) last

variable {step : σ → α → σ → Prop}

theorem Run.append (first : Run step s xs middle) (second : Run step middle ys last) :
    Run step s (xs ++ ys) last := by
  induction first with
  | nil => exact second
  | cons one _ ih => exact .cons one (ih second)

theorem Run.split (run : Run step s (before ++ a :: after) last) :
    ∃ u v, Run step s before u ∧ step u a v ∧ Run step v after last := by
  induction before generalizing s with
  | nil =>
    cases run with
    | cons one rest => exact ⟨s, _, .nil, one, rest⟩
  | cons first before ih =>
    cases run with
    | cons one rest =>
      obtain ⟨u, v, earlier, here, later⟩ := ih rest
      exact ⟨u, v, .cons one earlier, here, later⟩

theorem Run.mono {wider : σ → α → σ → Prop} (steps : ∀ s a next, step s a next → wider s a next)
    (run : Run step s labels last) : Run wider s labels last := by
  induction run with
  | nil => exact .nil
  | cons one _ ih => exact .cons (steps _ _ _ one) ih

theorem Run.mono_of {wider : σ → α → σ → Prop} (admissible : α → Prop)
    (steps : ∀ s a next, admissible a → step s a next → wider s a next) (run : Run step s labels last)
    (all : ∀ a ∈ labels, admissible a) : Run wider s labels last := by
  induction run with
  | nil => exact .nil
  | cons one _ ih =>
    exact .cons (steps _ _ _ (all _ List.mem_cons_self) one) (ih fun a member => all a (List.mem_cons_of_mem _ member))

/-- What holds initially and is kept by every step holds at the end of every run. -/
theorem Run.invariant (inv : σ → Prop) (kept : ∀ s a next, inv s → step s a next → inv next)
    (run : Run step s labels last) (initial : inv s) : inv last := by
  induction run with
  | nil => exact initial
  | cons one _ ih => exact ih (kept _ _ _ initial one)

/-- An invariant about the steps so far. -/
theorem Run.history (inv : List α → σ → Prop)
    (kept : ∀ past s a next, inv past s → step s a next → inv (past ++ [a]) next)
    (run : Run step s labels last) (initial : inv past s) : inv (past ++ labels) last := by
  induction run generalizing past with
  | nil => simpa using initial
  | @cons s a next labels last one _ ih =>
    rw [List.append_cons]
    exact ih (kept _ _ _ _ initial one)

theorem Run.with_invariant (inv : σ → Prop) (kept : ∀ s a next, inv s → step s a next → inv next)
    (run : Run step s labels last) (initial : inv s) :
    Run (fun s a next => step s a next ∧ inv s) s labels last := by
  induction run with
  | nil => exact .nil
  | cons one _ ih => exact .cons ⟨one, initial⟩ (ih (kept _ _ _ initial one))

end Transition
