import Mathlib.Algebra.Order.Monoid.Defs
import Titun.Lib.Since
import Titun.Lib.Transition

/-! A deadline that is set, put off, lifted and met, and how it follows from its history. -/
namespace Deadline

open Transition

variable {T : Type*}

/-- What becomes of a deadline. -/
inductive Act (T : Type*) where
  /-- It is set, unless it is set already. -/
  | arm (delay : T)
  /-- It is set, whether it is set already or not. -/
  | rearm (delay : T)
  | lift
  /-- Somebody looks whether it is met, and if so it is lifted. -/
  | poll (fires : Bool)
  | other

/-- The deadline after an act at a time. -/
def after [Add T] (now : T) (deadline : Option T) : Act T → Option T
  | .arm delay => some (deadline.getD (now + delay))
  | .rearm delay => some (now + delay)
  | .lift => none
  | .poll fires => if fires then none else deadline
  | .other => deadline

/-- A poll finds out whether the deadline is met. -/
def Allows [LE T] (now : T) (deadline : Option T) : Act T → Prop
  | .poll fires => fires = true ↔ ∃ due ∈ deadline, due ≤ now
  | _ => True

def Step [Add T] [LE T] (deadline : Option T) (o : T × Act T) (next : Option T) : Prop :=
  Allows o.1 deadline o.2 ∧ next = after o.1 deadline o.2

/-- The act sets the deadline. -/
def sets : T × Act T → Bool
  | (_, .arm _) | (_, .rearm _) => true
  | _ => false

def isRearm : T × Act T → Bool
  | (_, .rearm _) => true
  | _ => false

/-- The act ends the deadline. -/
def ends : T × Act T → Bool
  | (_, .lift) | (_, .poll true) => true
  | _ => false

/-- The deadline that an act sets. -/
def due [Add T] : T × Act T → Option T
  | (now, .arm delay) | (now, .rearm delay) => some (now + delay)
  | _ => none

/-- The acts that have set the deadline since it last ended. -/
def current (history : List (T × Act T)) : List (T × Act T) := Since.pending sets ends history

/-- The act that counts: the last that sets the deadline in any case, or else the first. -/
def governing (history : List (T × Act T)) : Option (T × Act T) :=
  ((current history).reverse.find? isRearm).or (current history).head?

variable {history : List (T × Act T)} {o : T × Act T}

theorem governing_ends (ended : ends o = true) : governing (history ++ [o]) = none := by
  rw [governing, current, Since.pending_stop _ _ history ended]
  rfl

theorem governing_other (goesOn : ends o = false) (other : sets o = false) :
    governing (history ++ [o]) = governing history := by
  rw [governing, governing, current, Since.pending_other _ _ history goesOn other, current]

theorem governing_rearm (goesOn : ends o = false) (set : sets o = true) (rearm : isRearm o = true) :
    governing (history ++ [o]) = some o := by
  rw [governing, current, Since.pending_start _ _ history goesOn set, List.reverse_append, List.reverse_singleton,
    List.singleton_append, List.find?_cons_of_pos rearm]
  rfl

theorem governing_arm (goesOn : ends o = false) (set : sets o = true) (arm : isRearm o = false) :
    governing (history ++ [o]) = (governing history).or (some o) := by
  rw [governing, current, Since.pending_start _ _ history goesOn set, List.reverse_append, List.reverse_singleton,
    List.singleton_append, List.find?_cons_of_neg (by simp [arm]), governing, current, Option.or_assoc]
  congr 1
  cases Since.pending sets ends history <;> rfl

theorem governing_sets (governs : o ∈ governing history) : sets o = true := by
  have among : o ∈ current history := by
    rcases Option.or_eq_some_iff.mp governs with found | ⟨_, first⟩
    · exact List.mem_reverse.mp (List.mem_of_find?_eq_some found)
    · exact List.mem_of_mem_head? first
  exact (Since.mem_of_mem_pending _ _ among).2

section Due

variable [Add T]

theorem due_of_sets (set : sets o = true) : ∃ time, due o = some time := by
  obtain ⟨now, act⟩ := o
  cases act with
  | arm delay | rearm delay => exact ⟨now + delay, rfl⟩
  | _ => cases set

variable [LE T] {deadline next : Option T}

theorem step_follows (step : Step deadline o next) (follows : deadline = (governing history).bind due) :
    next = (governing (history ++ [o])).bind due := by
  obtain ⟨now, act⟩ := o
  obtain ⟨_, rfl⟩ := step
  dsimp only
  subst follows
  cases act with
  | arm delay =>
    rw [governing_arm rfl rfl rfl]
    cases governs : governing history with
    | none => rfl
    | some first =>
      obtain ⟨time, sets⟩ := due_of_sets (governing_sets governs)
      simp [after, sets]
  | rearm delay =>
    rw [governing_rearm rfl rfl rfl]
    rfl
  | lift =>
    rw [governing_ends rfl]
    rfl
  | poll fires =>
    cases fires with
    | true =>
      rw [governing_ends rfl]
      rfl
    | false =>
      rw [governing_other rfl rfl]
      rfl
  | other =>
    rw [governing_other rfl rfl]
    rfl

/-- In every history the deadline is the one that the governing act has set. -/
theorem follows (run : Run Step none history deadline) : deadline = (governing history).bind due := by
  have initial : (none : Option T) = (governing []).bind due := rfl
  exact run.history (fun past deadline => deadline = (governing past).bind due)
    (fun _ _ _ _ same step => step_follows step same) initial

theorem isSome_iff (run : Run Step none history deadline) : deadline.isSome = true ↔ current history ≠ [] := by
  rw [follows run]
  cases governs : governing history with
  | none =>
    have nothing : current history = [] := by
      rw [governing, Option.or_eq_none_iff] at governs
      exact List.head?_eq_none_iff.mp governs.2
    simp [nothing]
  | some o =>
    obtain ⟨time, sets⟩ := due_of_sets (governing_sets governs)
    have something : current history ≠ [] := by
      intro nothing
      rw [governing, nothing] at governs
      cases governs
    simp [sets, something]

end Due

end Deadline
