import Mathlib.Data.List.Forall2
import Mathlib.Data.List.Nodup

/-! Books of tickets in many hands: no ticket is used twice as long as no two books are the same. -/
namespace Tickets

variable {Key Ticket Hand : Type*}

/-- A book, and which of its tickets can still be used. -/
structure Book (Key Ticket : Type*) where
  key : Key
  free : Ticket → Prop

/-- What is done with books. -/
inductive Act (Key Ticket : Type*) where
  | issue (key : Key)
  | use (key : Key) (ticket : Ticket)
  | other

/-- The book with fewer tickets, perhaps. -/
structure Book.Within (u t : Book Key Ticket) : Prop where
  key : u.key = t.key
  free : ∀ n, u.free n → t.free n

theorem Book.Within.refl (t : Book Key Ticket) : t.Within t := ⟨rfl, fun _ => id⟩

instance Book.Within.isRefl : Std.Refl (Book.Within : Book Key Ticket → Book Key Ticket → Prop) := ⟨Book.Within.refl⟩

/-- What each hand holds becomes something else, and nothing is done elsewhere. -/
inductive Moves : (Hand → List (Book Key Ticket)) → List (Hand × Act Key Ticket) →
    (Hand → List (Book Key Ticket)) → Prop where
  /-- Books get lost, or lose tickets. -/
  | lose : (∀ i, List.SublistForall₂ Book.Within (next i) (books i)) → Moves books [] next
  | issue {book : Book Key Ticket} {i : Hand} : next i = book :: books i → (∀ j, j ≠ i → next j = books j) →
      Moves books [(i, .issue book.key)] next
  | use {t u : Book Key Ticket} {front back : List (Book Key Ticket)} {n : Ticket} {i : Hand} :
      t.free n → u.Within t → ¬ u.free n →
      books i = front ++ t :: back → next i = front ++ u :: back → (∀ j, j ≠ i → next j = books j) →
      Moves books [(i, .use t.key n)] next
  | other {i : Hand} : next = books → Moves books [(i, .other)] next
  | append : Moves books first middle → Moves middle second next → Moves books (first ++ second) next

def Act.issued? : Act Key Ticket → Option Key
  | issue key => some key
  | _ => none

def Act.used? : Act Key Ticket → Option (Key × Ticket)
  | use key ticket => some (key, ticket)
  | _ => none

def issued (history : List (Hand × Act Key Ticket)) : List Key := history.filterMap fun o => o.2.issued?

def used (history : List (Hand × Act Key Ticket)) : List (Key × Ticket) := history.filterMap fun o => o.2.used?

theorem issued_append (first second : List (Hand × Act Key Ticket)) :
    issued (first ++ second) = issued first ++ issued second := List.filterMap_append

/-- What a history says about the books that there are. -/
structure Sound (history : List (Hand × Act Key Ticket)) (books : Hand → List (Book Key Ticket)) : Prop where
  known : ∀ i, ∀ t ∈ books i, t.key ∈ issued history
  single : ∀ i, ((books i).map Book.key).Nodup
  apart : ∀ i j, ∀ t ∈ books i, ∀ u ∈ books j, t.key = u.key → i = j
  genuine : ∀ o ∈ used history, o.1 ∈ issued history
  spent : ∀ i, ∀ t ∈ books i, ∀ n, (t.key, n) ∈ used history → ¬ t.free n
  once : (used history).Nodup

variable {books next : Hand → List (Book Key Ticket)} {history events : List (Hand × Act Key Ticket)}

theorem Sound.nothing : Sound ([] : List (Hand × Act Key Ticket)) fun _ => [] := by
  constructor <;> simp [used]

theorem exists_within {later earlier : List (Book Key Ticket)} (less : List.SublistForall₂ Book.Within later earlier)
    (member : u ∈ later) : ∃ t ∈ earlier, u.Within t := by
  induction less with
  | nil => cases member
  | cons within _ ih =>
    rcases List.mem_cons.mp member with rfl | deeper
    · exact ⟨_, List.mem_cons_self, within⟩
    · obtain ⟨t, old, within⟩ := ih deeper
      exact ⟨t, List.mem_cons_of_mem _ old, within⟩
  | cons_right _ ih =>
    obtain ⟨t, old, within⟩ := ih member
    exact ⟨t, List.mem_cons_of_mem _ old, within⟩

theorem keys_sublist {later earlier : List (Book Key Ticket)} (less : List.SublistForall₂ Book.Within later earlier) :
    (later.map Book.key).Sublist (earlier.map Book.key) := by
  induction less with
  | nil => exact List.nil_sublist _
  | cons within _ ih =>
    rw [List.map_cons, List.map_cons, within.key]
    exact ih.cons_cons _
  | cons_right _ ih => exact ih.cons _

theorem Sound.lose (sound : Sound history books) (less : ∀ i, List.SublistForall₂ Book.Within (next i) (books i)) :
    Sound history next where
  known i u member := by
    obtain ⟨t, old, within⟩ := exists_within (less i) member
    rw [within.key]
    exact sound.known i t old
  single i := (sound.single i).sublist (keys_sublist (less i))
  apart i j u member v other same := by
    obtain ⟨t, old, within⟩ := exists_within (less i) member
    obtain ⟨w, older, inside⟩ := exists_within (less j) other
    exact sound.apart i j t old w older (within.key.symm.trans (same.trans inside.key))
  genuine := sound.genuine
  spent i u member n spent free := by
    obtain ⟨t, old, within⟩ := exists_within (less i) member
    exact sound.spent i t old n (within.key ▸ spent) (within.free n free)
  once := sound.once

theorem Sound.same (sound : Sound history books) (member : t ∈ books i) (other : u ∈ books j) (same : t.key = u.key) :
    t = u := by
  obtain rfl := sound.apart i j t member u other same
  exact List.inj_on_of_nodup_map (sound.single i) member other same

theorem Sound.other (sound : Sound history books) (i : Hand) : Sound (history ++ [(i, .other)]) books := by
  have same : issued (history ++ [(i, .other)]) = issued history := by simp [issued, Act.issued?]
  have unused : used (history ++ [(i, .other)]) = used history := by simp [used, Act.used?]
  constructor
  · rw [same]
    exact sound.known
  · exact sound.single
  · exact sound.apart
  · rw [same, unused]
    exact sound.genuine
  · rw [unused]
    exact sound.spent
  · rw [unused]
    exact sound.once

theorem Sound.issue (sound : Sound history books) {book : Book Key Ticket} (fresh : book.key ∉ issued history)
    (own : next i = book :: books i) (others : ∀ j, j ≠ i → next j = books j) :
    Sound (history ++ [(i, .issue book.key)]) next := by
  have more : issued (history ++ [(i, .issue book.key)]) = issued history ++ [book.key] := by
    simp [issued, Act.issued?]
  have unused : used (history ++ [(i, .issue book.key)]) = used history := by simp [used, Act.used?]
  have origin (j : Hand) (t : Book Key Ticket) (member : t ∈ next j) : j = i ∧ t = book ∨ t ∈ books j := by
    by_cases here : j = i
    · subst here
      rw [own] at member
      rcases List.mem_cons.mp member with rfl | old
      · exact .inl ⟨rfl, rfl⟩
      · exact .inr old
    · rw [others j here] at member
      exact .inr member
  have new {j : Hand} {t : Book Key Ticket} (old : t ∈ books j) : t.key ≠ book.key := by
    intro same
    exact fresh (same ▸ sound.known j t old)
  constructor
  · intro j t member
    rw [more]
    rcases origin j t member with ⟨_, rfl⟩ | old
    · exact List.mem_append_right _ (List.mem_singleton_self _)
    · exact List.mem_append_left _ (sound.known j t old)
  · intro j
    by_cases here : j = i
    · subst here
      rw [own, List.map_cons, List.nodup_cons]
      refine ⟨?_, sound.single j⟩
      rintro member
      obtain ⟨t, old, same⟩ := List.mem_map.mp member
      exact new old same
    · rw [others j here]
      exact sound.single j
  · intro j k t member u other same
    rcases origin j t member with ⟨rfl, rfl⟩ | old
    · rcases origin k u other with ⟨rfl, rfl⟩ | older
      · rfl
      · exact absurd same.symm (new older)
    · rcases origin k u other with ⟨rfl, rfl⟩ | older
      · exact absurd same (new old)
      · exact sound.apart j k t old u older same
  · intro o member
    rw [unused] at member
    rw [more]
    exact List.mem_append_left _ (sound.genuine o member)
  · intro j t member n spent
    rw [unused] at spent
    rcases origin j t member with ⟨_, rfl⟩ | old
    · exact absurd (sound.genuine _ spent) fresh
    · exact sound.spent j t old n spent
  · rw [unused]
    exact sound.once

theorem Sound.use (sound : Sound history books) {t u : Book Key Ticket} (free : t.free n) (within : u.Within t)
    (gone : ¬ u.free n) (own : books i = front ++ t :: back) (later : next i = front ++ u :: back)
    (others : ∀ j, j ≠ i → next j = books j) : Sound (history ++ [(i, .use t.key n)]) next := by
  have same : issued (history ++ [(i, .use t.key n)]) = issued history := by simp [issued, Act.issued?]
  have more : used (history ++ [(i, .use t.key n)]) = used history ++ [(t.key, n)] := by
    simp [used, Act.used?]
  have less (j : Hand) : List.SublistForall₂ Book.Within (next j) (books j) := by
    by_cases here : j = i
    · subst here
      rw [own, later, List.sublistForall₂_iff]
      refine ⟨front ++ t :: back, ?_, .refl _⟩
      exact List.rel_append (List.forall₂_refl _) (.cons within (List.forall₂_refl _))
    · rw [others j here]
      exact refl _
  have kept := sound.lose less
  have before : t ∈ books i := by simp [own]
  have after : u ∈ next i := by simp [later]
  have new : (t.key, n) ∉ used history := fun used => sound.spent i t before n used free
  constructor
  · rw [same]
    exact kept.known
  · exact kept.single
  · exact kept.apart
  · intro o member
    rw [same]
    rw [more] at member
    rcases List.mem_append.mp member with old | last
    · exact sound.genuine o old
    · obtain rfl := List.mem_singleton.mp last
      exact sound.known i t before
  · intro j v member m spent
    rw [more] at spent
    rcases List.mem_append.mp spent with old | last
    · exact kept.spent j v member m old
    · obtain ⟨key, rfl⟩ := Prod.mk.inj (List.mem_singleton.mp last)
      obtain rfl := kept.same member after (key.trans within.key.symm)
      exact gone
  · rw [more]
    exact List.nodup_append.mpr ⟨sound.once, List.nodup_singleton _, by
      rintro o old _ last rfl
      obtain rfl := List.mem_singleton.mp last
      exact new old⟩

/-- Whatever is done, the history says what it should as long as no key is issued twice. -/
theorem Moves.sound (moves : Moves books events next) (fresh : (issued (history ++ events)).Nodup)
    (sound : Sound history books) : Sound (history ++ events) next := by
  induction moves generalizing history with
  | lose less =>
    rw [List.append_nil]
    exact sound.lose less
  | @issue books next book i own others =>
    refine sound.issue ?_ own others
    have split : issued (history ++ [(i, .issue book.key)]) = issued history ++ [book.key] := by
      simp [issued, Act.issued?]
    rw [split] at fresh
    exact fun old => (List.nodup_append.mp fresh).2.2 _ old _ (List.mem_singleton_self _) rfl
  | use free within gone own later others => exact sound.use free within gone own later others
  | @other books next i same =>
    rw [same]
    exact sound.other i
  | append _ _ first second =>
    rw [← List.append_assoc] at fresh ⊢
    have before := fresh
    rw [issued_append] at before
    exact second fresh (first (List.nodup_append.mp before).1 sound)

/-- As long as no key is issued twice, no ticket is used twice. -/
theorem Moves.once (moves : Moves (fun _ => []) events next) (fresh : (issued events).Nodup) : (used events).Nodup := by
  have sound : Sound ([] ++ events) next := moves.sound fresh .nothing
  exact sound.once

end Tickets
