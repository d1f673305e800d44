import Titun.Lib.HashMap
import Mathlib.Data.List.Nodup
import Mathlib.Data.List.Perm.Basic

/-! A map from names to owners, from which a dropped name is taken at once or later. -/

structure Registry (κ ρ : Type) where
  map : HashMap κ ρ
  /-- Names that are still to be taken out. -/
  deferred : List κ

namespace Registry

variable {κ ρ : Type} [DecidableEq κ] (reg : Registry κ ρ)

def get (k : κ) : Option ρ := reg.map.get k

def insert (k : κ) (r : ρ) : Registry κ ρ := { reg with map := reg.map.insert k r }

/-- Takes a name out if the map is free, and otherwise leaves that for later. -/
def drop (free : κ → Bool) (k : κ) : Registry κ ρ :=
  if free k then { reg with map := reg.map.remove k } else { reg with deferred := reg.deferred ++ [k] }

def dropAll (free : κ → Bool) (ks : List κ) : Registry κ ρ := ks.foldl (fun reg k => reg.drop free k) reg

/-- What was left for later is done. -/
def settle (k : κ) : Registry κ ρ := ⟨reg.map.remove k, reg.deferred.erase k⟩

variable {reg} {k j : κ} {r q : ρ} {free : κ → Bool} {ks : List κ}

theorem get_insert : (reg.insert k r).get j = if j = k then some r else reg.get j :=
  HashMap.get_insert reg.map k j r

theorem get_settle : (reg.settle k).get j = if j = k then none else reg.get j :=
  HashMap.get_remove reg.map k j

@[simp] theorem dropAll_nil : reg.dropAll free [] = reg := rfl

@[simp] theorem dropAll_cons : reg.dropAll free (k :: ks) = (reg.drop free k).dropAll free ks := rfl

theorem dropAll_spec (reg : Registry κ ρ) (free : κ → Bool) (ks : List κ) :
    ∃ late, late.Sublist ks ∧ (reg.dropAll free ks).deferred = reg.deferred ++ late ∧
      ∀ j, (reg.dropAll free ks).get j = if j ∈ ks ∧ free j = true then none else reg.get j := by
  induction ks generalizing reg with
  | nil => exact ⟨[], .slnil, (List.append_nil _).symm, fun j => by simp⟩
  | cons k ks ih =>
    obtain ⟨late, sublist, deferred, get⟩ := ih (reg.drop free k)
    by_cases isFree : free k = true
    · refine ⟨late, .cons _ sublist, ?_, fun j => ?_⟩
      · rw [dropAll_cons, deferred, drop, if_pos isFree]
      · have one : (reg.drop free k).get j = if j = k then none else reg.get j := by
          rw [drop, if_pos isFree]
          exact HashMap.get_remove reg.map k j
        rw [dropAll_cons, get, one]
        by_cases here : j = k
        · simp [here, isFree]
        · simp [here]
    · refine ⟨k :: late, .cons_cons _ sublist, ?_, fun j => ?_⟩
      · rw [dropAll_cons, deferred, drop, if_neg isFree, List.append_assoc, List.singleton_append]
      · have one : (reg.drop free k).get j = reg.get j := by rw [drop, if_neg isFree]; rfl
        rw [dropAll_cons, get, one]
        by_cases here : j = k
        · simp [here, isFree]
        · simp [here]

theorem get_of_dropAll (entry : (reg.dropAll free ks).get k = some r) : reg.get k = some r := by
  obtain ⟨_, _, _, get⟩ := dropAll_spec reg free ks
  rw [get] at entry
  split_ifs at entry
  exact entry

theorem get_of_insert (entry : (reg.insert j q).get k = some r) : reg.get k = some r ∨ r = q := by
  rw [get_insert] at entry
  split_ifs at entry
  · exact .inr (Option.some.inj entry).symm
  · exact .inl entry

theorem mem_deferred_dropAll (member : k ∈ ks) (busy : free k ≠ true) :
    k ∈ (reg.dropAll free ks).deferred := by
  induction ks generalizing reg with
  | nil => cases member
  | cons j ks ih =>
    rcases List.mem_cons.mp member with rfl | later
    · obtain ⟨late, _, deferred, _⟩ := dropAll_spec (reg.drop free k) free ks
      rw [dropAll_cons, deferred, drop, if_neg busy]
      simp
    · exact ih later

/-- Every entry belongs to its owner or is about to be taken out. -/
def Tidy (reg : Registry κ ρ) (owned : ρ → List κ) : Prop :=
  ∀ k r, reg.get k = some r → k ∈ owned r ∨ k ∈ reg.deferred

namespace Tidy

variable {owned next : ρ → List κ}

theorem insert (tidy : reg.Tidy owned) (own : k ∈ owned r) : (reg.insert k r).Tidy owned := by
  intro j q entry
  rw [get_insert] at entry
  split_ifs at entry with here
  · obtain rfl := Option.some.inj entry
    exact .inl (here ▸ own)
  · exact tidy j q entry

theorem dropAll (tidy : reg.Tidy owned) (free : κ → Bool)
    (kept : ∀ r k, k ∈ owned r → k ∈ next r ∨ k ∈ ks) : (reg.dropAll free ks).Tidy next := by
  intro j q entry
  obtain ⟨late, _, deferred, get⟩ := dropAll_spec reg free ks
  rw [get] at entry
  split_ifs at entry with gone
  rcases tidy j q entry with own | later
  · refine (kept q j own).imp_right fun dropped => ?_
    exact mem_deferred_dropAll dropped fun isFree => gone ⟨dropped, isFree⟩
  · exact .inr (deferred ▸ List.mem_append_left _ later)

theorem release [DecidableEq ρ] (tidy : reg.Tidy owned) (free : κ → Bool) {left : List κ}
    (kept : ∀ k ∈ owned r, k ∈ left ∨ k ∈ ks) :
    (reg.dropAll free ks).Tidy (Function.update owned r left) := by
  refine tidy.dropAll free fun q k own => ?_
  by_cases here : q = r
  · subst here
    rw [Function.update_self]
    exact kept k own
  · rw [Function.update_of_ne here]
    exact .inl own

theorem mono (tidy : reg.Tidy owned) (more : ∀ r k, k ∈ owned r → k ∈ next r) : reg.Tidy next :=
  fun k r entry => (tidy k r entry).imp_left (more r k)

theorem settle (tidy : reg.Tidy owned) (k : κ) : (reg.settle k).Tidy owned := by
  intro j q entry
  rw [get_settle] at entry
  split_ifs at entry with here
  refine (tidy j q entry).imp_right fun later => ?_
  exact (List.mem_erase_of_ne here).mpr later

end Tidy

theorem deferred_dropAll (reg : Registry κ ρ) (free : κ → Bool) (ks : List κ) :
    (reg.dropAll free ks).deferred = reg.deferred ++ ks.filter fun k => !free k := by
  induction ks generalizing reg with
  | nil => simp
  | cons k ks ih =>
    rw [dropAll_cons, ih, drop]
    cases busy : free k <;> simp [busy]

theorem deferred_dropAll_of_free (reg : Registry κ ρ) (ks : List κ) (isFree : ∀ k, free k = true) :
    (reg.dropAll free ks).deferred = reg.deferred := by
  simp [deferred_dropAll, isFree]

/-- The entries are those of the names that are owned, each by one owner and once, and those left for
later, which are owned no more. -/
structure Exact (reg : Registry κ ρ) (owned : ρ → List κ) : Prop where
  entry : ∀ r k, k ∈ owned r → reg.get k = some r
  tidy : reg.Tidy owned
  once : ∀ r, (owned r).Nodup
  present : ∀ k ∈ reg.deferred, (reg.get k).isSome = true
  distinct : reg.deferred.Nodup
  apart : ∀ k ∈ reg.deferred, ∀ r, k ∉ owned r

namespace Exact

variable {owned next : ρ → List κ}

theorem empty : Exact (⟨∅, []⟩ : Registry κ ρ) fun _ => [] where
  entry r k own := by cases own
  tidy k r entry := by simp [get] at entry
  once r := List.nodup_nil
  present k later := by cases later
  distinct := List.nodup_nil
  apart k later := by cases later

theorem get_iff (exact : reg.Exact owned) (settled : reg.deferred = []) :
    reg.get k = some r ↔ k ∈ owned r := by
  refine ⟨fun entry => ?_, exact.entry r k⟩
  refine (exact.tidy k r entry).resolve_right ?_
  rw [settled]
  exact List.not_mem_nil

theorem fresh (exact : reg.Exact owned) (free : reg.get k = none) :
    k ∉ reg.deferred ∧ ∀ r, k ∉ owned r := by
  refine ⟨fun later => ?_, fun r own => ?_⟩
  · simpa [free] using exact.present k later
  · cases free.symm.trans (exact.entry r k own)

theorem congr {other : Registry κ ρ} (exact : reg.Exact owned) (same : ∀ k, other.get k = reg.get k)
    (later : other.deferred = reg.deferred) (perm : ∀ r, (next r).Perm (owned r)) : other.Exact next where
  entry r k own := (same k).trans (exact.entry r k ((perm r).subset own))
  tidy k r entry := by
    rw [later]
    exact (exact.tidy k r ((same k).symm.trans entry)).imp_left ((perm r).symm.subset ·)
  once r := (perm r).nodup_iff.mpr (exact.once r)
  present k member := by
    rw [same]
    exact exact.present k (later ▸ member)
  distinct := later ▸ exact.distinct
  apart k member r own := exact.apart k (later ▸ member) r ((perm r).subset own)

theorem settle (exact : reg.Exact owned) (later : k ∈ reg.deferred) : (reg.settle k).Exact owned where
  entry r j own := by
    rw [get_settle, if_neg (by rintro rfl; exact exact.apart j later r own)]
    exact exact.entry r j own
  tidy := exact.tidy.settle k
  once := exact.once
  present j member := by
    obtain ⟨other, old⟩ := exact.distinct.mem_erase_iff.mp member
    rw [get_settle, if_neg other]
    exact exact.present j old
  distinct := exact.distinct.erase k
  apart j member := exact.apart j (List.mem_of_mem_erase member)

variable [DecidableEq ρ]

theorem take (exact : reg.Exact owned) (free : reg.get k = none) :
    (reg.insert k r).Exact (Function.update owned r (k :: owned r)) := by
  obtain ⟨notLater, notOwned⟩ := exact.fresh free
  have more (q : ρ) (j : κ) : j ∈ Function.update owned r (k :: owned r) q ↔ q = r ∧ j = k ∨ j ∈ owned q := by
    by_cases here : q = r
    · subst here
      rw [Function.update_self, List.mem_cons]
      simp
    · rw [Function.update_of_ne here]
      simp [here]
  refine ⟨fun q j own => ?_, ?_, fun q => ?_, fun j later => ?_, exact.distinct, fun j later q own => ?_⟩
  · rw [get_insert]
    rcases (more q j).mp own with ⟨rfl, rfl⟩ | old
    · rw [if_pos rfl]
    · rw [if_neg (by rintro rfl; exact notOwned q old)]
      exact exact.entry q j old
  · exact (exact.tidy.mono fun q j own => (more q j).mpr (.inr own)).insert
      ((more r k).mpr (.inl ⟨rfl, rfl⟩))
  · by_cases here : q = r
    · subst here
      rw [Function.update_self]
      exact List.nodup_cons.mpr ⟨notOwned q, exact.once q⟩
    · rw [Function.update_of_ne here]
      exact exact.once q
  · rw [get_insert]
    split_ifs
    · rfl
    · exact exact.present j later
  · rcases (more q j).mp own with ⟨_, rfl⟩ | old
    · exact notLater later
    · exact exact.apart j later q old

theorem release (exact : reg.Exact owned) (free : κ → Bool) {left : List κ}
    (split : (owned r).Perm (left ++ ks)) :
    (reg.dropAll free ks).Exact (Function.update owned r left) := by
  obtain ⟨_, _, _, get⟩ := dropAll_spec reg free ks
  have deferred := deferred_dropAll reg free ks
  obtain ⟨keeps, drops, disjoint⟩ := List.nodup_append.mp (split.nodup_iff.mp (exact.once r))
  have dropped {j : κ} (member : j ∈ ks) : j ∈ owned r := split.symm.subset (List.mem_append_right _ member)
  have kept {q : ρ} {j : κ} (own : j ∈ Function.update owned r left q) : j ∈ owned q ∧ j ∉ ks := by
    by_cases here : q = r
    · subst here
      rw [Function.update_self] at own
      exact ⟨split.symm.subset (List.mem_append_left _ own), fun member => disjoint j own j member rfl⟩
    · rw [Function.update_of_ne here] at own
      refine ⟨own, fun member => here ?_⟩
      exact Option.some.inj ((exact.entry q j own).symm.trans (exact.entry r j (dropped member)))
  have later {j : κ} (member : j ∈ (reg.dropAll free ks).deferred) :
      j ∈ reg.deferred ∧ j ∉ ks ∨ j ∈ ks ∧ free j = false := by
    rw [deferred] at member
    rcases List.mem_append.mp member with old | new
    · exact .inl ⟨old, fun member => exact.apart j old r (dropped member)⟩
    · simpa using Or.inr (List.mem_filter.mp new)
  refine ⟨fun q j own => ?_, exact.tidy.release free fun k own => List.mem_append.mp (split.subset own),
    fun q => ?_, fun j member => ?_, ?_, fun j member q own => ?_⟩
  · obtain ⟨own, stays⟩ := kept own
    rw [get, if_neg fun gone => stays gone.1]
    exact exact.entry q j own
  · by_cases here : q = r
    · subst here
      rw [Function.update_self]
      exact keeps
    · rw [Function.update_of_ne here]
      exact exact.once q
  · rw [get]
    rcases later member with ⟨old, stays⟩ | ⟨gone, busy⟩
    · rw [if_neg fun gone => stays gone.1]
      exact exact.present j old
    · rw [if_neg (by simp [busy]), exact.entry r j (dropped gone)]
      rfl
  · rw [deferred]
    refine List.nodup_append.mpr ⟨exact.distinct, drops.filter _, ?_⟩
    rintro j old k new rfl
    exact exact.apart j old r (dropped (List.mem_filter.mp new).1)
  · obtain ⟨own, stays⟩ := kept own
    rcases later member with ⟨old, _⟩ | ⟨gone, _⟩
    · exact exact.apart j old q own
    · exact stays gone

end Exact

end Registry
