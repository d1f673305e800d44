import Mathlib

/-! A token bucket that starts full, and the traffic its level stands for. What has flown in
is given as a running total, so the windows of the history are differences of it. -/
namespace TokenBucket

variable {α : Type*} [AddCommGroup α] [LinearOrder α] [IsOrderedAddMonoid α]

/-- The level after each charge. A refill stops at the capacity and a charge stops at nothing. -/
def level (cap cost : α) (inflow : Nat → α) : Nat → α
  | 0 => cap
  | n + 1 => max (min cap (level cap cost inflow n + (inflow (n + 1) - inflow n)) - cost) 0

/-- What is missing after each charge, if nothing is charged in vain. -/
def deficit (cost : α) (inflow : Nat → α) : Nat → α
  | 0 => 0
  | n + 1 => max (deficit cost inflow n - (inflow (n + 1) - inflow n)) 0 + cost

variable {cap cost : α} {inflow : Nat → α}

omit [IsOrderedAddMonoid α] in
theorem level_nonneg (room : 0 ≤ cap) : ∀ n, 0 ≤ level cap cost inflow n
  | 0 => room
  | _ + 1 => le_max_right _ _

theorem level_le_cap (room : 0 ≤ cap) (charge : 0 ≤ cost) : ∀ n, level cap cost inflow n ≤ cap
  | 0 => le_rfl
  | n + 1 => by
    apply max_le _ room
    exact (sub_le_self _ charge).trans (min_le_left _ _)

omit [LinearOrder α] [IsOrderedAddMonoid α] in
theorem window_succ {i n : Nat} (inside : i ≤ n) : (n + 1 - i + 1) • cost - (inflow (n + 1) - inflow i) =
    (n - i + 1) • cost - (inflow n - inflow i) - (inflow (n + 1) - inflow n) + cost := by
  have longer : n + 1 - i + 1 = (n - i + 1) + 1 := by omega
  rw [longer, succ_nsmul]
  abel

/-- The deficit is what the fullest window so far charges beyond what flows in during it. -/
theorem le_deficit_iff (filling : Monotone inflow) (x : α) (n : Nat) : x ≤ deficit cost inflow (n + 1) ↔
    ∃ i, 1 ≤ i ∧ i ≤ n + 1 ∧ x ≤ (n + 1 - i + 1) • cost - (inflow (n + 1) - inflow i) := by
  induction n generalizing x with
  | zero =>
    have first : deficit cost inflow 1 = cost := by
      have refill : inflow 0 ≤ inflow 1 := filling (Nat.zero_le 1)
      simp [deficit, refill]
    rw [first]
    constructor
    · intro below
      exact ⟨1, le_rfl, le_rfl, by simpa using below⟩
    · rintro ⟨i, one, only, below⟩
      obtain rfl : i = 1 := le_antisymm only one
      simpa using below
  | succ n ih =>
    have split : x ≤ deficit cost inflow (n + 2) ↔
        x - cost + (inflow (n + 2) - inflow (n + 1)) ≤ deficit cost inflow (n + 1) ∨ x ≤ cost := by
      rw [deficit, ← sub_le_iff_le_add, le_max_iff, le_sub_iff_add_le, sub_nonpos]
    rw [split, ih]
    constructor
    · rintro (⟨i, one, inside, below⟩ | single)
      · refine ⟨i, one, by omega, ?_⟩
        rw [window_succ inside, ← sub_le_iff_le_add, le_sub_iff_add_le]
        exact below
      · exact ⟨n + 2, by omega, le_rfl, by simpa using single⟩
    · rintro ⟨i, one, inside, below⟩
      obtain last | inside : i = n + 2 ∨ i ≤ n + 1 := by omega
      · right
        subst last
        simpa using below
      · left
        refine ⟨i, one, inside, ?_⟩
        rw [window_succ inside, ← sub_le_iff_le_add, le_sub_iff_add_le] at below
        exact below

/-- While no charge has been in vain, the level is what the deficit leaves of the capacity. -/
theorem level_eq (n : Nat) (paid : ∀ i ≤ n, deficit cost inflow i ≤ cap) :
    level cap cost inflow n = cap - deficit cost inflow n := by
  induction n with
  | zero => simp [level, deficit]
  | succ n ih =>
    have before := ih fun i inside => paid i (Nat.le_succ_of_le inside)
    have now : deficit cost inflow (n + 1) ≤ cap := paid (n + 1) le_rfl
    have filled : min cap (level cap cost inflow n + (inflow (n + 1) - inflow n)) =
        cap - max (deficit cost inflow n - (inflow (n + 1) - inflow n)) 0 := by
      rw [before, ← min_sub_sub_left, sub_zero, min_comm]
      congr 1
      abel
    have charged : cap - max (deficit cost inflow n - (inflow (n + 1) - inflow n)) 0 - cost =
        cap - deficit cost inflow (n + 1) := by
      rw [deficit, sub_add_eq_sub_sub]
    rw [level, filled, charged, max_eq_left (sub_nonneg.mpr now)]

section Mark

variable {mark : α} (positive : 0 ≤ mark) (room : mark + cost ≤ cap) (charge : 0 ≤ cost) (filling : Monotone inflow)
include positive room charge filling

theorem deficit_le_cap {n : Nat} (below : ∀ i < n, deficit cost inflow i < mark) : deficit cost inflow n ≤ cap := by
  cases n with
  | zero => exact (add_nonneg positive charge).trans room
  | succ n =>
    have before : deficit cost inflow n < mark := below n (Nat.lt_succ_self n)
    have refill : 0 ≤ inflow (n + 1) - inflow n := sub_nonneg.mpr (filling (Nat.le_succ n))
    have most : max (deficit cost inflow n - (inflow (n + 1) - inflow n)) 0 ≤ mark := by
      apply max_le _ positive
      exact (sub_le_self _ refill).trans before.le
    calc deficit cost inflow (n + 1) ≤ mark + cost := add_le_add_left most cost
      _ ≤ cap := room

theorem level_of_below {n : Nat} (below : ∀ i < n, deficit cost inflow i < mark) :
    level cap cost inflow n = cap - deficit cost inflow n := by
  apply level_eq
  intro i inside
  apply deficit_le_cap positive room charge filling
  intro j before
  exact below j (before.trans_le inside)

theorem above_iff_below (n : Nat) : (∀ i < n, cap - mark < level cap cost inflow i) ↔
    ∀ i < n, deficit cost inflow i < mark := by
  induction n with
  | zero => simp
  | succ n ih =>
    rw [Nat.forall_lt_succ_right, Nat.forall_lt_succ_right, ih]
    apply and_congr_right
    intro below
    rw [level_of_below positive room charge filling below, sub_lt_sub_iff_left]

/-- The level is down to a mark for the first time when the deficit is up to it for the first time. -/
theorem first_mark_iff (n : Nat) :
    (level cap cost inflow n ≤ cap - mark ∧ ∀ i < n, cap - mark < level cap cost inflow i) ↔
      mark ≤ deficit cost inflow n ∧ ∀ i < n, deficit cost inflow i < mark := by
  rw [above_iff_below positive room charge filling]
  apply and_congr_left
  intro below
  rw [level_of_below positive room charge filling below, sub_le_sub_iff_left]

end Mark

/-- A refill of a part of the bucket and of one charge leaves that part in it, whatever was in it before. -/
theorem le_level_of_refill {part : α} {n : Nat} (fits : part + cost ≤ cap) (before : 0 ≤ level cap cost inflow n)
    (refill : part + cost ≤ inflow (n + 1) - inflow n) : part ≤ level cap cost inflow (n + 1) := by
  apply le_max_of_le_left
  rw [le_sub_iff_add_le]
  apply le_min fits
  exact refill.trans (le_add_of_nonneg_left before)

end TokenBucket
