import Mathlib.Data.List.Nodup
import Mathlib.Data.List.Perm.Subperm
import Mathlib.Tactic

/-! Names that are drawn once, and of which each has at most one owner. -/

/-- The owners own names out of those drawn so far, and nobody owns one twice or together
with somebody else. -/
structure Exclusive (owned : ι → List κ) (drawn : List κ) : Prop where
  drawn : ∀ i, ∀ k ∈ owned i, k ∈ drawn
  nodup : ∀ i, (owned i).Nodup
  disjoint : ∀ i j k, k ∈ owned i → k ∈ owned j → i = j

namespace Exclusive

theorem nothing : Exclusive (fun _ : ι => ([] : List κ)) [] :=
  ⟨by simp, by simp, by simp⟩

/-- Owners drop names, and one of them gets new names that were not drawn before. -/
theorem step [DecidableEq ι] {owned next : ι → List κ} {drawn new : List κ}
    (exclusive : Exclusive owned drawn) (distinct : new.Nodup) (fresh : ∀ k ∈ new, k ∉ drawn) (taker : ι)
    (passed : ∀ i, (next i).Subperm ((if i = taker then new else []) ++ owned i)) :
    Exclusive next (drawn ++ new) := by
  have source (i : ι) (k : κ) (member : k ∈ next i) : i = taker ∧ k ∈ new ∨ k ∈ owned i := by
    have := (passed i).subset member
    split_ifs at this with here
    · exact (List.mem_append.mp this).imp_left (⟨here, ·⟩)
    · exact .inr this
  refine ⟨fun i k member => ?_, fun i => ?_, fun i j k one two => ?_⟩
  · rcases source i k member with ⟨_, isNew⟩ | old
    · exact List.mem_append_right _ isNew
    · exact List.mem_append_left _ (exclusive.drawn i k old)
  · obtain ⟨names, perm, sublist⟩ := passed i
    refine perm.nodup_iff.mp (sublist.nodup ?_)
    split_ifs
    · exact List.nodup_append.mpr ⟨distinct, exclusive.nodup i, fun a isNew b old same =>
        fresh a isNew (same ▸ exclusive.drawn i b old)⟩
    · exact exclusive.nodup i
  · rcases source i k one with ⟨rfl, isNew⟩ | old <;> rcases source j k two with ⟨rfl, isNew'⟩ | old'
    · rfl
    · exact absurd (exclusive.drawn j k old') (fresh k isNew)
    · exact absurd (exclusive.drawn i k old) (fresh k isNew')
    · exact exclusive.disjoint i j k old old'

end Exclusive
