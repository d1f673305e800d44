import Titun.Lib.PrefixBits

/-! Partial maps keyed by prefixes, with longest-prefix lookup. Nothing here says
how such a map is stored. -/
namespace PrefixMap

open PrefixBits

/-- A word together with how many of its leading bits count. -/
structure Key (w : Nat) where
  bits : BitVec w
  len : Nat
  deriving DecidableEq, Repr

/-- The prefix of length `n` of a word, with the remaining bits zeroed. -/
def Key.of (a : BitVec w) (n : Nat) : Key w := ⟨a &&& highMask n, n⟩

@[simp] theorem Key.of_len (a : BitVec w) (n : Nat) : (Key.of a n).len = n := rfl

theorem Key.of_eq_of_iff {a b : BitVec w} : Key.of a n = Key.of b n ↔ SamePrefix n a b := by
  simp [Key.of, and_highMask_eq_iff]

@[simp] theorem Key.of_masked (a : BitVec w) : Key.of (a &&& highMask n) n = Key.of a n := by
  simp [Key.of]

end PrefixMap

/-- A partial map from prefixes to values. -/
abbrev PrefixMap (w : Nat) (α : Type u) := PrefixMap.Key w → Option α

namespace PrefixMap

open PrefixBits

variable {α : Type u}

def empty : PrefixMap w α := fun _ => none

def insert (m : PrefixMap w α) (a : BitVec w) (n : Nat) (v : α) : PrefixMap w α :=
  Function.update m (Key.of a n) (some v)

def remove (m : PrefixMap w α) (a : BitVec w) (n : Nat) : PrefixMap w α :=
  Function.update m (Key.of a n) none

/-- What the longest prefix of `a` in the map, if any, is mapped to. -/
def IsLongest (m : PrefixMap w α) (a : BitVec w) : Option α → Prop
  | some v => ∃ n ≤ w, m (Key.of a n) = some v ∧ ∀ k ≤ w, n < k → m (Key.of a k) = none
  | none => ∀ n ≤ w, m (Key.of a n) = none

/-- Search downwards from length `n`. -/
def longestFrom (m : PrefixMap w α) (a : BitVec w) : Nat → Option α
  | 0 => m (Key.of a 0)
  | n + 1 => (m (Key.of a (n + 1))).or (longestFrom m a n)

def longest (m : PrefixMap w α) (a : BitVec w) : Option α := longestFrom m a w

theorem longestFrom_none {m : PrefixMap w α} {a : BitVec w} (h : longestFrom m a n = none) :
    ∀ k ≤ n, m (Key.of a k) = none := by
  induction n with
  | zero =>
    intro k hk
    obtain rfl : k = 0 := by omega
    exact h
  | succ n ih =>
    simp only [longestFrom, Option.or_eq_none_iff] at h
    intro k hk
    by_cases top : k = n + 1
    · subst k; exact h.1
    · exact ih h.2 k (by omega)

theorem longestFrom_some {m : PrefixMap w α} {a : BitVec w} (h : longestFrom m a n = some v) :
    ∃ k ≤ n, m (Key.of a k) = some v ∧ ∀ j ≤ n, k < j → m (Key.of a j) = none := by
  induction n with
  | zero => exact ⟨0, Nat.le_refl 0, h, fun j hj lt => by omega⟩
  | succ n ih =>
    simp only [longestFrom, Option.or_eq_some_iff] at h
    rcases h with top | ⟨missing, below⟩
    · exact ⟨n + 1, Nat.le_refl _, top, fun j hj lt => by omega⟩
    · obtain ⟨k, le, found, longer⟩ := ih below
      refine ⟨k, by omega, found, fun j hj lt => ?_⟩
      by_cases at_top : j = n + 1
      · subst j; exact missing
      · exact longer j (by omega) lt

theorem longest_isLongest (m : PrefixMap w α) (a : BitVec w) : IsLongest m a (longest m a) := by
  cases h : longest m a with
  | none => exact longestFrom_none h
  | some v => exact longestFrom_some h

theorem IsLongest.unique {m : PrefixMap w α} {a : BitVec w} {r s : Option α}
    (hr : IsLongest m a r) (hs : IsLongest m a s) : r = s := by
  cases r with
  | none =>
    cases s with
    | none => rfl
    | some v =>
      obtain ⟨n, le, found, _⟩ := hs
      simp [hr n le] at found
  | some v =>
    obtain ⟨n, le, found, longer⟩ := hr
    cases s with
    | none => simp [hs n le] at found
    | some u =>
      obtain ⟨k, le', found', longer'⟩ := hs
      rcases Nat.lt_trichotomy n k with lt | rfl | gt
      · simp [longer k le' lt] at found'
      · exact found.symm.trans found'
      · simp [longer' n le gt] at found

theorem isLongest_iff {m : PrefixMap w α} {a : BitVec w} {r : Option α} :
    IsLongest m a r ↔ longest m a = r := by
  constructor
  · exact fun h => (longest_isLongest m a).unique h
  · rintro rfl
    exact longest_isLongest m a

theorem longest_eq_of_isLongest {m : PrefixMap w α} {a : BitVec w} {r : Option α}
    (h : IsLongest m a r) : longest m a = r := isLongest_iff.mp h

/-- When `m` adds to `m'` only bindings of one shorter length, the binding at that
length is the fallback of the longest match in `m'`. -/
theorem longest_eq_or {m m' : PrefixMap w α} {a : BitVec w} (bounded : len ≤ w)
    (longer : ∀ n, len < n → m (Key.of a n) = m' (Key.of a n))
    (outside : ∀ n ≤ len, m' (Key.of a n) = none) (shorter : ∀ n < len, m (Key.of a n) = none) :
    longest m a = (longest m' a).or (m (Key.of a len)) := by
  apply longest_eq_of_isLongest
  cases found : longest m' a with
  | some v =>
    obtain ⟨n, le, bound, above⟩ := isLongest_iff.mpr found
    have deep : len < n := by
      by_contra high
      simp [outside n (by omega)] at bound
    exact ⟨n, le, (longer n deep).trans bound, fun j hj lt =>
      (longer j (by omega)).trans (above j hj lt)⟩
  | none =>
    have missing : IsLongest m' a none := isLongest_iff.mpr found
    have below (n : Nat) (le : n ≤ w) (lt : len < n) : m (Key.of a n) = none :=
      (longer n lt).trans (missing n le)
    rw [Option.none_or]
    cases own : m (Key.of a len) with
    | some v => exact ⟨len, bounded, own, below⟩
    | none =>
      intro n le
      rcases Nat.lt_trichotomy n len with lt | rfl | gt
      · exact shorter n lt
      · exact own
      · exact below n le gt

@[simp] theorem longest_empty (a : BitVec w) : longest (empty : PrefixMap w α) a = none :=
  longest_eq_of_isLongest fun _ _ => rfl

end PrefixMap
