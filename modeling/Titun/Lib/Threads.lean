import Mathlib.Tactic

/-! How many of finitely many threads stand at a place, while one of them moves. -/
namespace Threads

variable {ι α : Type} [Fintype ι] [DecidableEq ι]

/-- The number of threads whose place satisfies `p`. -/
def count (p : α → Prop) [DecidablePred p] (place : ι → α) : Nat :=
  (Finset.univ.filter fun i => p (place i)).card

variable (p q : α → Prop) [DecidablePred p] [DecidablePred q] (place : ι → α) (i : ι) (x : α)

theorem count_update : count p (Function.update place i x) + (if p (place i) then 1 else 0) =
    count p place + (if p x then 1 else 0) := by
  have others : ∀ f : ι → α, count p f =
      (if p (f i) then 1 else 0) + ∑ j ∈ Finset.univ.erase i, if p (f j) then 1 else 0 := by
    intro f
    rw [count, Finset.card_filter]
    exact (Finset.add_sum_erase _ (fun j => if p (f j) then 1 else 0) (Finset.mem_univ i)).symm
  have same : ∑ j ∈ Finset.univ.erase i, (if p (Function.update place i x j) then 1 else 0) =
      ∑ j ∈ Finset.univ.erase i, if p (place j) then 1 else 0 := by
    refine Finset.sum_congr rfl fun j member => ?_
    rw [Function.update_of_ne (Finset.ne_of_mem_erase member)]
  rw [others, others place, same, Function.update_self]
  omega

omit [DecidableEq ι] in
theorem count_pos (here : p (place i)) : 0 < count p place :=
  Finset.card_pos.mpr ⟨i, by simp [here]⟩

/-- A thread that stands at neither of two disjoint places leaves room for one more. -/
theorem count_add_count_lt (disjoint : ∀ a, p a → ¬ q a) (notP : ¬ p (place i))
    (notQ : ¬ q (place i)) : count p place + count q place < Fintype.card ι := by
  rw [count, count, ← Finset.card_union_of_disjoint]
  · exact Finset.card_lt_univ_of_notMem (x := i) (by simp [notP, notQ])
  · exact Finset.disjoint_filter.mpr fun j _ => disjoint (place j)

end Threads
