import Mathlib.Tactic

/-! Vectors with a fixed capacity. -/

/-- At most `cap` elements, in order. -/
def ArrayVec (α : Type) (cap : Nat) := { items : List α // items.length ≤ cap }

namespace ArrayVec

variable {α : Type} {cap : Nat}

instance [DecidableEq α] : DecidableEq (ArrayVec α cap) :=
  inferInstanceAs (DecidableEq { items : List α // items.length ≤ cap })

def empty : ArrayVec α cap := ⟨[], Nat.zero_le cap⟩

/-- Inserts an element at the front; of a full vector the last element goes. -/
def pushFront (v : ArrayVec α (cap + 1)) (a : α) : Option α × ArrayVec α (cap + 1) :=
  if full : v.val.length = cap + 1 then (v.val.getLast?, ⟨a :: v.val.dropLast, by simp [full]⟩)
  else (none, ⟨a :: v.val, Nat.succ_le_of_lt (Nat.lt_of_le_of_ne v.property full)⟩)

/-- Writes through a reference to the first element that satisfies `p`. -/
def replaceFirst (v : ArrayVec α cap) (p : α → Bool) (a : α) : ArrayVec α cap :=
  ⟨v.val.replaceF fun x => if p x then some a else none, by
    rw [List.length_replaceF]
    exact v.property⟩

def modify (v : ArrayVec α cap) (i : Nat) (f : α → α) : ArrayVec α cap :=
  ⟨v.val.modify i f, by simpa using v.property⟩

theorem pushFront_val (v : ArrayVec α (cap + 1)) (a : α) :
    ∃ kept, kept.Sublist v.val ∧ (v.pushFront a).2.val = a :: kept := by
  unfold pushFront
  split
  · exact ⟨v.val.dropLast, List.dropLast_sublist v.val, rfl⟩
  · exact ⟨v.val, List.Sublist.refl _, rfl⟩

theorem pushFront_split (v : ArrayVec α (cap + 1)) (a : α) :
    ∃ kept, (v.pushFront a).2.val = a :: kept ∧ v.val = kept ++ (v.pushFront a).1.toList := by
  unfold pushFront
  split
  next full =>
    have filled : v.val ≠ [] := List.ne_nil_of_length_eq_add_one full
    refine ⟨v.val.dropLast, rfl, ?_⟩
    rw [List.getLast?_eq_some_getLast filled]
    exact (List.dropLast_append_getLast filled).symm
  next => exact ⟨v.val, rfl, (List.append_nil _).symm⟩

theorem pushFront_take (v : ArrayVec α (cap + 1)) (a : α) : (v.pushFront a).2.val = a :: v.val.take cap := by
  unfold pushFront
  split
  next full =>
    change a :: v.val.dropLast = _
    rw [List.dropLast_eq_take, full, Nat.add_sub_cancel]
  next room =>
    have short : v.val.length ≤ cap := Nat.le_of_lt_succ (Nat.lt_of_le_of_ne v.property room)
    rw [List.take_of_length_le short]

theorem pushFront_evicts (v : ArrayVec α (cap + 1)) (a b : α) : (v.pushFront a).1 = (v.pushFront b).1 := by
  unfold pushFront
  split <;> rfl

theorem mem_pushFront_of_mem_take {v : ArrayVec α (cap + 1)} {a x : α} (member : x ∈ v.val.take cap) :
    x ∈ (v.pushFront a).2.val := by
  unfold pushFront
  split
  next full =>
    refine List.mem_cons_of_mem _ ?_
    rwa [List.dropLast_eq_take, full]
  next => exact List.mem_cons_of_mem _ (List.mem_of_mem_take member)

theorem mem_pushFront {v : ArrayVec α (cap + 1)} {a x : α} (member : x ∈ (v.pushFront a).2.val) :
    x = a ∨ x ∈ v.val.take cap := by
  unfold pushFront at member
  split at member
  next full =>
    refine (List.mem_cons.mp member).imp_right fun old => ?_
    rwa [List.dropLast_eq_take, full] at old
  next room =>
    refine (List.mem_cons.mp member).imp_right fun old => ?_
    rwa [List.take_of_length_le (Nat.le_of_lt_succ (Nat.lt_of_le_of_ne v.property room))]

theorem replaceFirst_place {v : ArrayVec α cap} {p : α → Bool} {x : α} (found : v.val.find? p = some x) (a : α) :
    ∃ front back, v.val = front ++ x :: back ∧ (v.replaceFirst p a).val = front ++ a :: back ∧
      front.length = v.val.findIdx p := by
  obtain ⟨hit, front, back, split, misses⟩ := List.find?_eq_some_iff_append.mp found
  refine ⟨front, back, split, ?_⟩
  change v.val.replaceF _ = _ ∧ _
  rw [split]
  clear split
  induction front with
  | nil => simp [hit, List.findIdx_cons]
  | cons head rest ih =>
    have miss : p head = false := by simpa using misses head List.mem_cons_self
    rw [List.cons_append, List.replaceF_cons, List.findIdx_cons]
    simpa [miss] using ih fun y member => misses y (List.mem_cons_of_mem _ member)

theorem replaceFirst_val {v : ArrayVec α cap} {p : α → Bool} {x : α}
    (found : v.val.find? p = some x) (a : α) :
    ∃ front back, v.val = front ++ x :: back ∧ (v.replaceFirst p a).val = front ++ a :: back := by
  obtain ⟨front, back, split, next, _⟩ := replaceFirst_place found a
  exact ⟨front, back, split, next⟩

theorem replaceFirst_pushFront (v : ArrayVec α (cap + 1)) (a b : α) :
    (v.pushFront a).2.replaceFirst (fun _ => true) b = (v.pushFront b).2 := by
  apply Subtype.ext
  change (v.pushFront a).2.val.replaceF _ = _
  rw [pushFront_take, pushFront_take]
  rfl

theorem replaceFirst_none {v : ArrayVec α cap} {p : α → Bool} {a : α}
    (nowhere : v.val.find? p = none) : v.replaceFirst p a = v := by
  apply Subtype.ext
  refine List.replaceF_of_forall_none fun x member => ?_
  rw [if_neg (List.find?_eq_none.mp nowhere x member)]

theorem mem_replaceFirst {v : ArrayVec α cap} {p : α → Bool} {a x : α}
    (member : x ∈ (v.replaceFirst p a).val) : x ∈ v.val ∨ x = a := by
  cases found : v.val.find? p with
  | none =>
    rw [replaceFirst_none found] at member
    exact .inl member
  | some y =>
    obtain ⟨front, back, split, next⟩ := replaceFirst_val found a
    rw [next] at member
    rw [split]
    simp only [List.mem_append, List.mem_cons] at member ⊢
    tauto

theorem mem_replaceFirst_self {v : ArrayVec α cap} {p : α → Bool} {a x : α}
    (found : v.val.find? p = some x) : a ∈ (v.replaceFirst p a).val := by
  obtain ⟨front, back, _, next⟩ := replaceFirst_val found a
  simp [next]

theorem replaceFirst_self {v : ArrayVec α cap} {p : α → Bool} {a : α}
    (found : v.val.find? p = some a) : v.replaceFirst p a = v := by
  obtain ⟨front, back, split, next⟩ := replaceFirst_val found a
  exact Subtype.ext (next.trans split.symm)

theorem map_replaceFirst {β : Type} (v : ArrayVec α cap) (p : α → Bool) (a : α) (f : α → β)
    (same : ∀ x, v.val.find? p = some x → f a = f x) :
    (v.replaceFirst p a).val.map f = v.val.map f := by
  cases found : v.val.find? p with
  | none => rw [replaceFirst_none found]
  | some x =>
    obtain ⟨front, back, split, next⟩ := replaceFirst_val found a
    rw [next, split, List.map_append, List.map_append, List.map_cons, List.map_cons, same x found]

theorem map_modify {β : Type} (v : ArrayVec α cap) (i : Nat) (g : α → α) (f : α → β)
    (same : ∀ x, f (g x) = f x) : (v.modify i g).val.map f = v.val.map f := by
  change (v.val.modify i g).map f = _
  apply List.ext_getElem?
  intro j
  rw [List.getElem?_map, List.getElem?_map, List.getElem?_modify]
  cases v.val[j]? with
  | none => rfl
  | some x => by_cases here : i = j <;> simp [here, same]

theorem mem_modify {v : ArrayVec α cap} {i : Nat} {g : α → α} {x : α}
    (member : x ∈ (v.modify i g).val) : ∃ y ∈ v.val, x = y ∨ x = g y := by
  change x ∈ v.val.modify i g at member
  obtain ⟨j, found⟩ := List.mem_iff_getElem?.mp member
  rw [List.getElem?_modify] at found
  cases old : v.val[j]? with
  | none => simp [old] at found
  | some y =>
    refine ⟨y, List.mem_of_getElem? old, ?_⟩
    by_cases here : i = j <;> simp [here, old] at found <;> simp [found]

end ArrayVec
