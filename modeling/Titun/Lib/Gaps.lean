import Mathlib

/-! The gaps between the points of a list, as inclusive ranges. -/
namespace Gaps

variable {α : Type*} [LinearOrder α]

/-- The ranges are what is left from `low` on when the points are taken out. -/
structure Complement (low : α) (points : List α) (ranges : List (α × α)) : Prop where
  nonempty : ∀ range ∈ ranges, range.1 ≤ range.2
  above : ∀ range ∈ ranges, low ≤ range.1
  increasing : ranges.Pairwise fun a b => a.2 < b.1
  covers : ∀ a, low ≤ a → ((∃ range ∈ ranges, range.1 ≤ a ∧ a ≤ range.2) ↔ a ∉ points)

theorem Complement.nil [OrderTop α] (low : α) : Complement low [] [(low, ⊤)] where
  nonempty := by simp
  above := by simp
  increasing := by simp
  covers := by
    intro a from_low
    simp [from_low]

theorem Complement.top [OrderTop α] : Complement (⊤ : α) [⊤] [] where
  nonempty := by simp
  above := by simp
  increasing := by simp
  covers := by
    intro a from_top
    simp [top_le_iff.mp from_top]

theorem Complement.skip {p next : α} {points : List α} {ranges : List (α × α)} (after : p ⋖ next)
    (rest : Complement next points ranges) : Complement p (p :: points) ranges where
  nonempty := rest.nonempty
  above := by
    intro range member
    exact after.le.trans (rest.above range member)
  increasing := rest.increasing
  covers := by
    intro a from_p
    obtain rfl | beyond := from_p.eq_or_lt
    · constructor
      · rintro ⟨range, member, from_first, _⟩
        exact absurd (after.lt.trans_le (rest.above range member)) (not_lt.mpr from_first)
      · intro missing
        exact absurd List.mem_cons_self missing
    · rw [rest.covers a (after.ge_of_gt beyond), List.mem_cons, not_or]
      exact (and_iff_right beyond.ne').symm

/-- What lies before a point is a range that ends right before it. -/
theorem Complement.gap {low last p : α} {points : List α} {ranges : List (α × α)} (before : last ⋖ p) (some_left : low ≤ last)
    (rest : Complement p points ranges) (larger : ∀ q ∈ points, p ≤ q) : Complement low points ((low, last) :: ranges) where
  nonempty := by
    intro range member
    obtain rfl | member := List.mem_cons.mp member
    · exact some_left
    · exact rest.nonempty range member
  above := by
    intro range member
    obtain rfl | member := List.mem_cons.mp member
    · exact le_rfl
    · exact (some_left.trans before.le).trans (rest.above range member)
  increasing := by
    apply List.pairwise_cons.mpr
    constructor
    · intro range member
      exact before.lt.trans_le (rest.above range member)
    · exact rest.increasing
  covers := by
    intro a from_low
    obtain inside | beyond := le_or_gt a last
    · constructor
      · intro _ member
        exact absurd (inside.trans_lt before.lt) (not_lt.mpr (larger a member))
      · intro _
        exact ⟨(low, last), List.mem_cons_self, from_low, inside⟩
    · rw [← rest.covers a (before.ge_of_gt beyond)]
      constructor
      · rintro ⟨range, member, within⟩
        obtain rfl | member := List.mem_cons.mp member
        · exact absurd beyond (not_lt.mpr within.2)
        · exact ⟨range, member, within⟩
      · rintro ⟨range, member, within⟩
        exact ⟨range, List.mem_cons_of_mem _ member, within⟩

def dedup : List α → List α
  | [] => []
  | [a] => [a]
  | a :: b :: rest => if a = b then dedup (b :: rest) else a :: dedup (b :: rest)

theorem mem_dedup {a : α} {points : List α} : a ∈ dedup points ↔ a ∈ points := by
  induction points using dedup.induct with
  | case1 => simp [dedup]
  | case2 b => simp [dedup]
  | case3 b rest ih => simp [dedup, ih]
  | case4 b c rest different ih => simp [dedup, different, ih]

theorem dedup_increasing {points : List α} (sorted : points.Pairwise (· ≤ ·)) : (dedup points).Pairwise (· < ·) := by
  induction points using dedup.induct with
  | case1 => simp [dedup]
  | case2 a => simp [dedup]
  | case3 b rest ih =>
    rw [dedup, if_pos rfl]
    exact ih (List.pairwise_cons.mp sorted).2
  | case4 a b rest different ih =>
    obtain ⟨below, sorted⟩ := List.pairwise_cons.mp sorted
    have less : a < b := lt_of_le_of_ne (below b List.mem_cons_self) different
    rw [dedup, if_neg different]
    apply List.pairwise_cons.mpr
    constructor
    · intro c member
      obtain rfl | later := List.mem_cons.mp (mem_dedup.mp member)
      · exact less
      · exact less.trans_le ((List.pairwise_cons.mp sorted).1 c later)
    · exact ih sorted

end Gaps
