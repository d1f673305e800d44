import Titun.Types

/-! Timers: a flag and a deadline, polled by a task of their own. -/
namespace Titun

structure TimerHandle where
  activated : Bool
  deadline : Instant
  deriving DecidableEq

namespace TimerHandle

def new (now : Instant) : TimerHandle := ⟨false, now⟩

def adjustAndActivateSecs (_ : TimerHandle) (now : Instant) (seconds : Nat) : TimerHandle :=
  ⟨true, now + secs seconds⟩

def adjustAndActivateIfNotActivated (t : TimerHandle) (now : Instant) (seconds : Nat) : TimerHandle :=
  if t.activated then t else t.adjustAndActivateSecs now seconds

def deActivate (t : TimerHandle) : TimerHandle := { t with activated := false }

/-- The timer's task runs: whether the action is to be run, and the handle with its
deadline out of the way. -/
def poll (t : TimerHandle) (now : Instant) : Bool × TimerHandle :=
  if now < t.deadline then (false, t) else (t.activated, ⟨false, now + secs 600⟩)

theorem fires_iff (t : TimerHandle) (now : Instant) :
    (t.poll now).1 = true ↔ t.activated = true ∧ t.deadline ≤ now := by
  unfold poll
  split_ifs with early
  · simp [early]
  · simp [not_lt.mp early]

theorem poll_armed {pending : Prop} {t : TimerHandle} (armed : t.activated = true ∨ pending)
    (fires : (t.poll now).1 = true → pending) : (t.poll now).2.activated = true ∨ pending := by
  rcases armed with armed | under
  · unfold poll at fires ⊢
    split_ifs at fires ⊢
    · exact .inl armed
    · exact .inr (fires armed)
  · exact .inr under

theorem poll_kept {pending : Prop} {t armed : TimerHandle} (on : armed.activated = true) (handle : t = armed ∨ pending)
    (fires : (t.poll now).1 = true → pending) : (t.poll now).2 = armed ∨ pending := by
  rcases handle with rfl | under
  · unfold poll at fires ⊢
    split_ifs at fires ⊢
    · exact .inl rfl
    · exact .inr (fires on)
  · exact .inr under

theorem poll_off {t : TimerHandle} (off : t.activated = false) (now : Instant) : (t.poll now).2.activated = false := by
  unfold poll
  split_ifs
  · exact off
  · rfl

end TimerHandle

end Titun
