import Mathlib.Tactic

/-! What a replay filter decides, in terms of the numbers it accepted before. A
number is accepted once, if it is not too far below the largest accepted one. -/
namespace ReplayWindow

/-- The largest accepted number, 0 if there is none. -/
def largest : List Nat → Nat
  | [] => 0
  | n :: rest => max n (largest rest)

theorem le_largest {accepted : List Nat} (member : n ∈ accepted) : n ≤ largest accepted := by
  induction accepted with
  | nil => cases member
  | cons head rest ih =>
    rcases List.mem_cons.mp member with rfl | member
    · exact Nat.le_max_left _ _
    · exact (ih member).trans (Nat.le_max_right _ _)

theorem largest_le {accepted : List Nat} (bound : ∀ n ∈ accepted, n ≤ m) : largest accepted ≤ m := by
  induction accepted with
  | nil => exact Nat.zero_le m
  | cons head rest ih =>
    exact Nat.max_le.mpr ⟨bound head (by simp), ih fun n member => bound n (by simp [member])⟩

@[simp] theorem largest_append (xs ys : List Nat) :
    largest (xs ++ ys) = max (largest xs) (largest ys) := by
  induction xs with
  | nil => simp [largest]
  | cons head rest ih => simp [largest, ih, Nat.max_assoc]

@[simp] theorem largest_singleton (n : Nat) : largest [n] = n := by simp [largest]

/-- The number is new, and it is above every accepted one or at most `size` below the largest. -/
def Accepts (size : Nat) (accepted : List Nat) (n : Nat) : Prop :=
  n ∉ accepted ∧ ((∀ a ∈ accepted, a < n) ∨ largest accepted - n ≤ size)

instance (size : Nat) (accepted : List Nat) (n : Nat) : Decidable (Accepts size accepted n) :=
  inferInstanceAs (Decidable (_ ∧ _))

theorem accepts_iff : Accepts size accepted n ↔ n ∉ accepted ∧ largest accepted - n ≤ size := by
  constructor
  · rintro ⟨new, above | near⟩
    · refine ⟨new, ?_⟩
      have := largest_le (m := n) fun a member => Nat.le_of_lt (above a member)
      omega
    · exact ⟨new, near⟩
  · rintro ⟨new, near⟩
    exact ⟨new, Or.inr near⟩

end ReplayWindow
