import Mathlib.Data.List.DropRight
import Mathlib.Tactic

/-! Text as characters: its lines, and what remains of it without the space around it. -/
namespace Lines

abbrev Text := List Char

/-- The lines of a text: each ends with a line feed, which a carriage return may precede, or with the
text. -/
def lines : Text → List Text
  | [] => []
  | '\n' :: s => [] :: lines s
  | '\r' :: '\n' :: s => [] :: lines s
  | c :: s =>
    match lines s with
    | [] => [[c]]
    | l :: ls => (c :: l) :: ls

/-- A text of one line each. -/
def unlines (ls : List Text) : Text := ls.flatMap fun l => l ++ ['\n']

/-- No character ends a line. -/
def OneLine (s : Text) : Prop := '\n' ∉ s ∧ '\r' ∉ s

/-- What is left without the characters `p` at either end. -/
def strip (p : Char → Bool) (s : Text) : Text := (s.dropWhile p).rdropWhile p

/-- The characters with the Unicode property `White_Space`. -/
def isWhitespace (c : Char) : Bool :=
  let n := c.toNat
  (9 ≤ n ∧ n ≤ 13) ∨ n = 0x20 ∨ n = 0x85 ∨ n = 0xA0 ∨ n = 0x1680 ∨ (0x2000 ≤ n ∧ n ≤ 0x200A) ∨
    n = 0x2028 ∨ n = 0x2029 ∨ n = 0x202F ∨ n = 0x205F ∨ n = 0x3000

def trim (s : Text) : Text := strip isWhitespace s

theorem oneLine_cons : OneLine (c :: s) ↔ c ≠ '\n' ∧ c ≠ '\r' ∧ OneLine s := by
  simp only [OneLine, List.mem_cons, eq_comm]
  tauto

theorem lines_line (one : OneLine l) (s : Text) : lines (l ++ '\n' :: s) = l :: lines s := by
  induction l with
  | nil => simp [lines]
  | cons c l ih =>
    obtain ⟨feed, ret, one⟩ := oneLine_cons.mp one
    rw [List.cons_append, lines, ih one]
    · exact feed
    · exact fun _ isReturn => absurd isReturn ret

theorem lines_unlines (one : ∀ l ∈ ls, OneLine l) : lines (unlines ls) = ls := by
  induction ls with
  | nil => rfl
  | cons l ls ih =>
    have rest := ih fun m isIn => one m (List.mem_cons_of_mem _ isIn)
    have split : unlines (l :: ls) = l ++ '\n' :: unlines ls := by simp [unlines]
    rw [split, lines_line (one l List.mem_cons_self), rest]

section Strip

variable {p : Char → Bool}

theorem dropWhile_all_append (left : a.all p) (s : Text) : (a ++ s).dropWhile p = s.dropWhile p := by
  induction a with
  | nil => rfl
  | cons c a ih =>
    simp only [List.all_cons, Bool.and_eq_true] at left
    rw [List.cons_append, List.dropWhile_cons_of_pos left.1, ih left.2]

theorem rdropWhile_append_all (right : b.all p) (s : Text) : (s ++ b).rdropWhile p = s.rdropWhile p := by
  have reversed : b.reverse.all p := by simpa using right
  rw [List.rdropWhile, List.reverse_append, dropWhile_all_append reversed]
  rfl

theorem rdropWhile_append_cons (kept : p d = false) (s t : Text) :
    (s ++ d :: t).rdropWhile p = s ++ d :: t.rdropWhile p := by
  induction t using List.reverseRecOn with
  | nil =>
    rw [List.rdropWhile_concat_neg]
    · rfl
    · simp [kept]
  | append_singleton t e ih =>
    by_cases left : p e
    · have shorter : (s ++ d :: (t ++ [e])).rdropWhile p = (s ++ d :: t).rdropWhile p := by
        simpa using List.rdropWhile_concat_pos p (s ++ d :: t) e left
      rw [shorter, ih, List.rdropWhile_concat_pos p t e left]
    · have same : (s ++ d :: (t ++ [e])).rdropWhile p = s ++ d :: (t ++ [e]) := by
        simpa using List.rdropWhile_concat_neg p (s ++ d :: t) e left
      rw [same, List.rdropWhile_concat_neg p t e left]

theorem strip_cons (kept : p d = false) (s : Text) : strip p (d :: s) = d :: s.rdropWhile p := by
  rw [strip, List.dropWhile_cons_of_neg (by simp [kept])]
  exact rdropWhile_append_cons kept [] s

theorem strip_surrounded (left : a.all p) (right : b.all p) (s : Text) : strip p (a ++ s ++ b) = strip p s := by
  unfold strip
  rw [List.append_assoc, dropWhile_all_append left]
  by_cases all : s.all p
  · have both : (s ++ b).all p := by simp [all, right]
    have none : (s ++ b).dropWhile p = [] := by simpa [or_imp, forall_and] using both
    have none' : s.dropWhile p = [] := by simpa using all
    rw [none, none']
  · have nonempty : s.dropWhile p ≠ [] := by simpa using all
    have kept : (s ++ b).dropWhile p = s.dropWhile p ++ b := by
      rw [List.dropWhile_append, if_neg (by simpa using all)]
    rw [kept, rdropWhile_append_all right]

theorem strip_self (none : ∀ c ∈ s, p c = false) : strip p s = s := by
  unfold strip
  rw [List.dropWhile_eq_self_iff.mpr, List.rdropWhile_eq_self_iff.mpr]
  · intro nonempty
    simp [none _ (List.getLast_mem nonempty)]
  · intro nonempty
    simp [none _ (List.getElem_mem nonempty)]

theorem strip_parts (p : Char → Bool) (s : Text) :
    ∃ a b, a.all p ∧ b.all p ∧ s = a ++ strip p s ++ b := by
  refine ⟨s.takeWhile p, (s.dropWhile p).rtakeWhile p, ?_, ?_, ?_⟩
  · simp
  · exact List.all_eq_true.mpr fun c isIn => List.mem_rtakeWhile_imp isIn
  · rw [strip, List.append_assoc, List.rdropWhile_append_rtakeWhile, List.takeWhile_append_dropWhile]

theorem mem_of_mem_strip (isIn : c ∈ strip p s) : c ∈ s := by
  obtain ⟨a, b, _, _, parts⟩ := strip_parts p s
  rw [parts]
  simp [isIn]

theorem mem_strip (isIn : c ∈ s) (kept : p c = false) : c ∈ strip p s := by
  obtain ⟨a, b, left, right, parts⟩ := strip_parts p s
  have notLeft : c ∉ a := fun isIn => by simp [List.all_eq_true.mp left c isIn] at kept
  have notRight : c ∉ b := fun isIn => by simp [List.all_eq_true.mp right c isIn] at kept
  rw [parts] at isIn
  simpa [notLeft, notRight] using isIn

end Strip

end Lines
