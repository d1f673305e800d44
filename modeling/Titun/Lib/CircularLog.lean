import Mathlib.Tactic

/-! Records in a circular log. Offsets wrap around at the capacity, but the elements of a record are
contiguous: those of a record that reaches the end run past it. -/
namespace CircularLog

variable {α : Type} {mem new : List α} {cap pos : Nat}

/-- `n` elements from a position on. -/
def slice (mem : List α) (pos n : Nat) : List α := (mem.drop pos).take n

/-- Elements written over those from a position on. -/
def overwrite (mem : List α) (pos : Nat) (new : List α) : List α :=
  mem.take pos ++ (new ++ mem.drop (pos + new.length))

theorem slice_parts {a b : List α} (whole : slice mem pos (a ++ b).length = a ++ b) :
    slice mem pos a.length = a ∧ slice mem (pos + a.length) b.length = b := by
  have split : slice mem pos (a ++ b).length = slice mem pos a.length ++ slice mem (pos + a.length) b.length := by
    rw [slice, List.length_append, List.take_add, List.drop_drop]
    rfl
  have length : (slice mem pos a.length).length = a.length := by
    have total := congrArg List.length whole
    simp only [slice, List.length_take, List.length_drop, List.length_append] at total ⊢
    omega
  exact List.append_inj (split.symm.trans whole) length

theorem overwrite_length (fits : pos + new.length ≤ mem.length) : (overwrite mem pos new).length = mem.length := by
  simp only [overwrite, List.length_append, List.length_take, List.length_drop]
  omega

theorem slice_overwrite (fits : pos + new.length ≤ mem.length) : slice (overwrite mem pos new) pos new.length = new := by
  have front : (mem.take pos).length = pos := by
    rw [List.length_take]
    omega
  rw [slice, overwrite, List.drop_left' front, List.take_left' rfl]

theorem overwrite_append (more : List α) (fits : pos + new.length ≤ mem.length) :
    overwrite (overwrite mem pos new) (pos + new.length) more = overwrite mem pos (new ++ more) := by
  have front : (mem.take pos ++ new).length = pos + new.length := by
    rw [List.length_append, List.length_take]
    omega
  have shape : overwrite mem pos new = (mem.take pos ++ new) ++ mem.drop (pos + new.length) := by
    simp [overwrite]
  have before : (overwrite mem pos new).take (pos + new.length) = mem.take pos ++ new := by
    rw [shape, List.take_left' front]
  have after : (overwrite mem pos new).drop (pos + new.length + more.length) =
      mem.drop (pos + new.length + more.length) := by
    rw [shape, ← List.drop_drop, List.drop_left' front, List.drop_drop]
  rw [overwrite, before, after, overwrite, List.length_append]
  simp [Nat.add_assoc]

theorem slice_overwrite_of_disjoint (fits : pos + new.length ≤ mem.length)
    (apart : start + n ≤ pos ∨ pos + new.length ≤ start) :
    slice (overwrite mem pos new) start n = slice mem start n := by
  apply List.ext_getElem?
  intro i
  simp only [slice, List.getElem?_take, List.getElem?_drop]
  split_ifs with inside
  · have front : (mem.take pos).length = pos := by
      rw [List.length_take]
      omega
    unfold overwrite
    rcases apart with before | after
    · have early : start + i < pos := by omega
      rw [List.getElem?_append_left (by rw [front]; exact early), List.getElem?_take, if_pos early]
    · rw [List.getElem?_append_right (by rw [front]; omega), front,
        List.getElem?_append_right (by omega), List.getElem?_drop]
      congr 1
      omega
  · rfl

theorem slice_set_of_disjoint {i : Nat} (b : α) (apart : i < start ∨ start + n ≤ i) :
    slice (mem.set i b) start n = slice mem start n := by
  apply List.ext_getElem?
  intro j
  simp only [slice, List.getElem?_take, List.getElem?_drop]
  split_ifs with inside
  · apply List.getElem?_set_ne
    omega
  · rfl

theorem slice_set_next {written : List α} (b : α) (stored : slice mem pos written.length = written)
    (fits : pos + written.length < mem.length) :
    slice (mem.set (pos + written.length) b) pos (written ++ [b]).length = written ++ [b] := by
  have front : slice (mem.set (pos + written.length) b) pos written.length = written :=
    (slice_set_of_disjoint b (.inr (Nat.le_refl _))).trans stored
  rw [List.length_append, List.length_singleton, slice, List.take_add_one, List.getElem?_drop, List.getElem?_set_self fits]
  exact congrArg (· ++ [b]) front

theorem getElem?_of_slice {content : List α} (stored : slice mem pos content.length = content) {i : Nat}
    (inside : i < content.length) : mem[pos + i]? = content[i]? := by
  rw [← List.getElem?_drop, ← List.getElem?_take_of_lt inside]
  exact congrArg (·[i]?) stored

/-- Elements that take up some space. -/
structure Record (α : Type) where
  content : List α
  span : Nat
  fits : content.length ≤ span

def size (records : List (Record α)) : Nat := (records.map Record.span).sum

@[simp] theorem size_nil : size ([] : List (Record α)) = 0 := rfl

@[simp] theorem size_cons (r : Record α) (rs : List (Record α)) : size (r :: rs) = r.span + size rs := by
  simp [size]

@[simp] theorem size_append (rs ss : List (Record α)) : size (rs ++ ss) = size rs + size ss := by
  simp [size]

/-- Records that are stored one after the other. -/
def Stores (cap : Nat) (mem : List α) : Nat → List (Record α) → Prop
  | _, [] => True
  | pos, r :: rs => slice mem pos r.content.length = r.content ∧ Stores cap mem ((pos + r.span) % cap) rs

theorem Stores.concat {r : Record α} (stores : Stores cap mem pos rs) (inside : pos < cap)
    (last : slice mem ((pos + size rs) % cap) r.content.length = r.content) :
    Stores cap mem pos (rs ++ [r]) := by
  induction rs generalizing pos with
  | nil =>
    rw [size_nil, Nat.add_zero, Nat.mod_eq_of_lt inside] at last
    exact ⟨last, trivial⟩
  | cons s rs ih =>
    obtain ⟨first, rest⟩ := stores
    refine ⟨first, ih rest (Nat.mod_lt _ (by omega)) ?_⟩
    rw [Nat.mod_add_mod, Nat.add_assoc, ← size_cons]
    exact last

/-- Offsets within the capacity are told apart by their positions. -/
theorem offsets_apart (head : Nat) {off total i j : Nat} (before : off + i < total + j) (inside : total + j < cap) :
    (head + off) % cap + i ≠ (head + total) % cap + j := by
  intro same
  have congruent : (head + (off + i)) % cap = (head + (total + j)) % cap := by
    rw [← Nat.add_assoc, ← Nat.add_assoc, ← Nat.mod_add_mod, ← Nat.mod_add_mod (head + total), same]
  have equal : off + i ≡ total + j [MOD cap] := Nat.ModEq.add_left_cancel' head congruent
  have eq := Nat.ModEq.eq_of_lt_of_lt equal (by omega) inside
  omega

theorem positions_disjoint (head : Nat) {off total span n : Nat} (before : off + span ≤ total) (inside : total < cap)
    (room : total + n ≤ cap) :
    (head + off) % cap + span ≤ (head + total) % cap ∨ (head + total) % cap + n ≤ (head + off) % cap := by
  by_contra overlap
  obtain ⟨left, right⟩ := not_or.mp overlap
  have left := not_le.mp left
  have right := not_le.mp right
  rcases Nat.le_total ((head + off) % cap) ((head + total) % cap) with order | order
  · obtain ⟨i, isI⟩ := Nat.exists_eq_add_of_le order
    have earlier : off + i < total + 0 := by omega
    exact offsets_apart head earlier inside isI.symm
  · obtain ⟨j, isJ⟩ := Nat.exists_eq_add_of_le order
    have earlier : off + 0 < total + j := by omega
    exact offsets_apart head earlier (show total + j < cap by omega) isJ

/-- What is written behind the records leaves them as they are, also past the end. -/
theorem Stores.overwrite_behind {head off total : Nat} (stores : Stores cap mem ((head + off) % cap) rs)
    (behind : off + size rs ≤ total) (inside : total < cap) (room : total + new.length ≤ cap)
    (fits : (head + total) % cap + new.length ≤ mem.length) :
    Stores cap (overwrite mem ((head + total) % cap) new) ((head + off) % cap) rs := by
  induction rs generalizing off with
  | nil => trivial
  | cons r rs ih =>
    obtain ⟨first, rest⟩ := stores
    rw [size_cons] at behind
    have apart := positions_disjoint head (show off + r.span ≤ total by omega) inside room
    constructor
    · rw [slice_overwrite_of_disjoint fits (by have := r.fits; omega)]
      exact first
    · rw [Nat.mod_add_mod, Nat.add_assoc] at rest ⊢
      exact ih rest (by omega)

theorem Stores.set_behind {head off total i : Nat} (b : α) (stores : Stores cap mem ((head + off) % cap) rs)
    (behind : off + size rs ≤ total) (inside : total < cap) (room : total + n ≤ cap)
    (after : (head + total) % cap ≤ i) (before : i < (head + total) % cap + n) :
    Stores cap (mem.set i b) ((head + off) % cap) rs := by
  induction rs generalizing off with
  | nil => trivial
  | cons r rs ih =>
    obtain ⟨first, rest⟩ := stores
    rw [size_cons] at behind
    have apart := positions_disjoint head (show off + r.span ≤ total by omega) inside room
    have fits := r.fits
    constructor
    · rw [slice_set_of_disjoint b (by omega)]
      exact first
    · rw [Nat.mod_add_mod, Nat.add_assoc] at rest ⊢
      exact ih rest (by omega)

theorem Stores.write {r : Record α} (stores : Stores cap mem pos rs) (inside : pos < cap)
    (before : size rs < cap) (room : size rs + r.span ≤ cap) (fits : (pos + size rs) % cap + r.content.length ≤ mem.length) :
    Stores cap (overwrite mem ((pos + size rs) % cap) r.content) pos (rs ++ [r]) := by
  have start : (pos + 0) % cap = pos := Nat.mod_eq_of_lt inside
  have kept : Stores cap (overwrite mem ((pos + size rs) % cap) r.content) ((pos + 0) % cap) rs := by
    rw [← start] at stores
    exact stores.overwrite_behind (by omega) before (by have := r.fits; omega) fits
  rw [start] at kept
  exact kept.concat inside (slice_overwrite fits)

end CircularLog
