import Mathlib.Data.Finset.Basic
import Mathlib.Tactic

/-! Keys with at most one owner each. Claims take keys one after the other, also from their
owners, so of the claims that list a key the last one counts. -/
namespace Assignment

variable {K O : Type} [DecidableEq K] [DecidableEq O]

structure Claim (K O : Type) where
  owner : O
  keys : Finset K
  /-- The owner gives up the other keys it had. -/
  replace : Bool

def give (own : K → Option O) (c : Claim K O) : K → Option O := fun k =>
  if k ∈ c.keys then some c.owner
  else if c.replace ∧ own k = some c.owner then none
  else own k

def settle (own : K → Option O) (cs : List (Claim K O)) : K → Option O := cs.foldl give own

variable (own : K → Option O) {cs : List (Claim K O)} {k : K}

@[simp] theorem settle_nil : settle own [] = own := rfl

@[simp] theorem settle_cons (c : Claim K O) : settle own (c :: cs) = settle (give own c) cs := rfl

theorem settle_append {cs' : List (Claim K O)} : settle own (cs ++ cs') = settle (settle own cs) cs' :=
  List.foldl_append

theorem settle_kept (unlisted : ∀ c ∈ cs, k ∉ c.keys) (others : ∀ c ∈ cs, own k ≠ some c.owner) :
    settle own cs k = own k := by
  induction cs generalizing own with
  | nil => rfl
  | cons head rest ih =>
    have same : give own head k = own k := by
      simp [give, unlisted head List.mem_cons_self, others head List.mem_cons_self]
    rw [← same]
    apply ih
    · intro c isIn
      exact unlisted c (List.mem_cons_of_mem _ isIn)
    · intro c isIn
      rw [same]
      exact others c (List.mem_cons_of_mem _ isIn)

/-- The owner has claimed other keys instead. -/
theorem settle_dropped (unlisted : ∀ c ∈ cs, k ∉ c.keys) (member : c ∈ cs) (replace : c.replace)
    (owned : own k = some c.owner) : settle own cs k = none := by
  induction cs generalizing own with
  | nil => cases member
  | cons head rest ih =>
    have unlistedRest : ∀ c ∈ rest, k ∉ c.keys := fun c isIn =>
      unlisted c (List.mem_cons_of_mem _ isIn)
    have first := unlisted head List.mem_cons_self
    by_cases drops : head.replace ∧ own k = some head.owner
    · have dropped : give own head k = none := by simp [give, first, drops]
      exact (settle_kept _ unlistedRest (by simp [dropped])).trans dropped
    · have same : give own head k = own k := by simp only [give, first, drops, if_false]
      rcases List.mem_cons.mp member with rfl | later
      · exact absurd ⟨replace, owned⟩ drops
      · exact ih _ unlistedRest later (same.trans owned)

/-- With claims in a strict order of their owners, the greatest that lists a key gets it. -/
theorem settle_greatest (R : O → O → Prop) (asymm : ∀ a b, R a b → ¬ R b a)
    (sorted : cs.Pairwise fun a b => R a.owner b.owner) (member : c ∈ cs) (listed : k ∈ c.keys)
    (greatest : ∀ c' ∈ cs, k ∈ c'.keys → c' = c ∨ R c'.owner c.owner) :
    settle own cs k = some c.owner := by
  induction cs generalizing own with
  | nil => cases member
  | cons head rest ih =>
    obtain ⟨after, sortedRest⟩ := List.pairwise_cons.mp sorted
    rcases List.mem_cons.mp member with rfl | later
    · have given : give own c k = some c.owner := if_pos listed
      rw [settle_cons, ← given]
      apply settle_kept
      · intro c' isIn listed'
        have later := after c' isIn
        rcases greatest c' (List.mem_cons_of_mem _ isIn) listed' with rfl | earlier
        · exact asymm _ _ later later
        · exact asymm _ _ later earlier
      · intro c' isIn same
        have later := after c' isIn
        rw [given, Option.some.injEq] at same
        rw [same] at later
        exact asymm _ _ later later
    · exact ih _ sortedRest later fun c' isIn => greatest c' (List.mem_cons_of_mem _ isIn)

end Assignment
