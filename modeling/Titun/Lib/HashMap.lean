import Mathlib.Data.Finmap
import Mathlib.Tactic

/-! Finite maps between plain types. -/

abbrev HashMap (K V : Type) := Finmap fun _ : K => V

namespace HashMap

variable {K V : Type} [DecidableEq K] (m : HashMap K V) (k j : K) (v : V)

def get (m : HashMap K V) (k : K) : Option V := m.lookup k

def insert (m : HashMap K V) (k : K) (v : V) : HashMap K V := Finmap.insert k v m

def remove (m : HashMap K V) (k : K) : HashMap K V := Finmap.erase k m

/-- An order in which the keys may be visited. -/
def IterOrder (m : HashMap K V) (order : List K) : Prop :=
  order.Nodup ∧ ∀ k, k ∈ order ↔ (m.get k).isSome

@[simp] theorem get_empty : (∅ : HashMap K V).get k = none := Finmap.lookup_empty k

theorem get_insert : (m.insert k v).get j = if j = k then some v else m.get j := by
  by_cases same : j = k
  · subst same
    simp [get, insert]
  · rw [if_neg same]
    exact Finmap.lookup_insert_of_ne m same

theorem get_remove : (m.remove k).get j = if j = k then none else m.get j := by
  by_cases same : j = k
  · subst same
    simp [get, remove]
  · rw [if_neg same]
    exact Finmap.lookup_erase_ne same

end HashMap
