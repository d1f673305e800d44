import Mathlib.Data.List.DropRight

/-! What has started in a history since something last stopped it. -/
namespace Since

variable {α : Type*} (starts stops : α → Bool)

/-- The entries that start something after the last entry that stops it, oldest first. -/
def pending (history : List α) : List α := (history.rtakeWhile fun e => !stops e).filter starts

@[simp] theorem pending_nil : pending starts stops [] = [] := rfl

theorem pending_stop (history : List α) (stop : stops e = true) : pending starts stops (history ++ [e]) = [] := by
  rw [pending, List.rtakeWhile_concat_neg]
  · rfl
  · simp [stop]

theorem pending_start (history : List α) (goesOn : stops e = false) (start : starts e = true) :
    pending starts stops (history ++ [e]) = pending starts stops history ++ [e] := by
  rw [pending, List.rtakeWhile_concat_pos]
  · simp [pending, start]
  · simp [goesOn]

theorem pending_other (history : List α) (goesOn : stops e = false) (other : starts e = false) :
    pending starts stops (history ++ [e]) = pending starts stops history := by
  rw [pending, List.rtakeWhile_concat_pos]
  · simp [pending, other]
  · simp [goesOn]

theorem pending_after_stop (before after : List α) (stop : stops e = true) :
    pending starts stops (before ++ e :: after) = pending starts stops after := by
  induction after using List.reverseRecOn with
  | nil => exact pending_stop starts stops before stop
  | append_singleton after last ih =>
    rw [← List.cons_append, ← List.append_assoc]
    cases stopped : stops last with
    | true => rw [pending_stop starts stops _ stopped, pending_stop starts stops _ stopped]
    | false =>
      cases started : starts last with
      | true => rw [pending_start starts stops _ stopped started, pending_start starts stops _ stopped started, ih]
      | false => rw [pending_other starts stops _ stopped started, pending_other starts stops _ stopped started, ih]

theorem mem_of_mem_pending {history : List α} (member : e ∈ pending starts stops history) :
    e ∈ history ∧ starts e = true := by
  obtain ⟨recent, start⟩ := List.mem_filter.mp member
  exact ⟨(List.rtakeWhile_suffix _ history).subset recent, start⟩

end Since
