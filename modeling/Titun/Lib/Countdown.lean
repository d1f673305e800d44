import Mathlib.Tactic

/-! Lists whose items are numbered as they come, the newest item in front. -/

/-- Every item satisfies `P` with its number, where the next item gets number `n`. -/
def Countdown {α : Type*} (P : Nat → α → Prop) : Nat → List α → Prop
  | _, [] => True
  | 0, _ :: _ => False
  | n + 1, a :: rest => P n a ∧ Countdown P n rest

namespace Countdown

variable {α : Type*} {P Q : Nat → α → Prop} {n : Nat} {x y : α} {xs ys front back : List α}

@[simp] theorem nil : Countdown P n [] := by cases n <;> trivial

theorem cons (item : P n x) (rest : Countdown P n xs) : Countdown P (n + 1) (x :: xs) := ⟨item, rest⟩

theorem of_append (numbered : Countdown P n (xs ++ ys)) : Countdown P n xs := by
  induction xs generalizing n with
  | nil => exact nil
  | cons head rest ih =>
    cases n with
    | zero => cases numbered
    | succ n => exact ⟨numbered.1, ih numbered.2⟩

theorem take (numbered : Countdown P n xs) (k : Nat) : Countdown P n (xs.take k) := by
  rw [← List.take_append_drop k xs] at numbered
  exact numbered.of_append

theorem at_place (numbered : Countdown P n (front ++ x :: back)) : front.length < n ∧ P (n - 1 - front.length) x := by
  induction front generalizing n with
  | nil =>
    cases n with
    | zero => cases numbered
    | succ n => exact ⟨n.succ_pos, numbered.1⟩
  | cons head rest ih =>
    cases n with
    | zero => cases numbered
    | succ n =>
      obtain ⟨inside, item⟩ := ih numbered.2
      refine ⟨Nat.succ_lt_succ inside, ?_⟩
      rwa [List.length_cons, Nat.add_sub_cancel, ← Nat.sub_sub, Nat.sub_right_comm]

theorem replace (numbered : Countdown P n (front ++ x :: back)) (item : P (n - 1 - front.length) y) :
    Countdown P n (front ++ y :: back) := by
  induction front generalizing n with
  | nil =>
    cases n with
    | zero => cases numbered
    | succ n => exact ⟨item, numbered.2⟩
  | cons head rest ih =>
    cases n with
    | zero => cases numbered
    | succ n =>
      refine ⟨numbered.1, ih numbered.2 ?_⟩
      rwa [List.length_cons, Nat.add_sub_cancel, ← Nat.sub_sub, Nat.sub_right_comm] at item

theorem mono (wider : ∀ k x, k < n → P k x → Q k x) (numbered : Countdown P n xs) : Countdown Q n xs := by
  induction xs generalizing n with
  | nil => exact nil
  | cons head rest ih =>
    cases n with
    | zero => cases numbered
    | succ n =>
      exact ⟨wider n head n.lt_succ_self numbered.1,
        ih (fun k x less => wider k x (less.trans n.lt_succ_self)) numbered.2⟩

theorem only (numbered : Countdown P n (front ++ x :: back)) :
    Countdown (fun k y => k = n - 1 - front.length → y = x) n (front ++ x :: back) := by
  induction front generalizing n with
  | nil =>
    cases n with
    | zero => cases numbered
    | succ n =>
      constructor
      · intro _
        rfl
      · refine mono ?_ numbered.2
        intro k y less _ same
        exact absurd same less.ne
  | cons head rest ih =>
    cases n with
    | zero => cases numbered
    | succ n =>
      have inside := numbered.2.at_place.1
      constructor
      · intro same
        rw [List.length_cons] at same
        omega
      · refine mono ?_ (ih numbered.2)
        intro k y _ one same
        apply one
        rw [same, List.length_cons, Nat.add_sub_cancel, ← Nat.sub_sub, Nat.sub_right_comm]

end Countdown
