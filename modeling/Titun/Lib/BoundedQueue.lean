import Mathlib.Data.List.DropRight
import Mathlib.Tactic

/-! Queues that keep the most recent elements, and what comes out of them. -/
namespace BoundedQueue

variable {α β : Type}

/-- Makes room at the front for an element at the back. -/
def push (cap : Nat) (queue : List α) (a : α) : List α := queue.drop (queue.length + 1 - cap) ++ [a]

theorem push_rtake (cap : Nat) (room : 0 < cap) (all : List α) (a : α) :
    push cap (all.rtake cap) a = (all ++ [a]).rtake cap := by
  have length : (all.rtake cap).length = min cap all.length := by
    rw [List.rtake, List.length_drop]
    omega
  rw [push, length, List.rtake, List.rtake, List.drop_drop, List.length_append, List.length_singleton,
    List.drop_append_of_le_length (by omega)]
  congr 2
  omega

theorem push_ne_nil (cap : Nat) (queue : List α) (a : α) : push cap queue a ≠ [] :=
  List.append_ne_nil_of_right_ne_nil _ (List.cons_ne_nil a [])

theorem rtake_sublist (cap : Nat) (all : List α) : (all.rtake cap).Sublist all := List.drop_sublist _ all

/-- What can happen to a queue: elements that arrive, messages sent that carry elements, and the
queue after that. -/
inductive Moves (cap : Nat) (carries : α → β → Prop) (mayDiscard : Prop) :
    List α → List α → List β → List α → Prop where
  | keep {queue : List α} : Moves cap carries mayDiscard queue [] [] queue
  | enqueue {queue : List α} {a : α} : Moves cap carries mayDiscard queue [a] [] (push cap queue a)
  /-- Only an empty queue is passed by. -/
  | pass {a : α} {b : β} : carries a b → Moves cap carries mayDiscard [] [a] [b] []
  | drop {a : α} : Moves cap carries mayDiscard [] [a] [] []
  | flush {queue : List α} {sent : List β} : List.Forall₂ carries queue sent →
      Moves cap carries mayDiscard queue [] sent []
  | discard {queue : List α} : mayDiscard → Moves cap carries mayDiscard queue [] [] []

theorem Moves.mono {cap : Nat} {carries : α → β → Prop} {mayDiscard allowed : Prop}
    (moves : Moves cap carries mayDiscard queue arrivals messages next) (allows : mayDiscard → allowed) :
    Moves cap carries allowed queue arrivals messages next := by
  cases moves with
  | keep => exact .keep
  | enqueue => exact .enqueue
  | pass carry => exact .pass carry
  | drop => exact .drop
  | flush all => exact .flush all
  | discard may => exact .discard (allows may)

/-- What has arrived, the part of it since the queue was last empty, and what was sent. -/
structure History (α β : Type) where
  arrived : List α
  waiting : List α
  sent : List β

namespace History

def empty : History α β := ⟨[], [], []⟩

/-- The history after a move, with the queue that it leaves. -/
def after (h : History α β) (arrivals : List α) (messages : List β) : List α → History α β
  | [] => ⟨h.arrived ++ arrivals, [], h.sent ++ messages⟩
  | _ :: _ => ⟨h.arrived ++ arrivals, h.waiting ++ arrivals, h.sent ++ messages⟩

/-- The queue holds the most recent of the elements that wait, and what was sent carries, in the order
of their arrival, elements from before these. -/
structure InOrder (cap : Nat) (carries : α → β → Prop) (h : History α β) (queue : List α) : Prop where
  recent : queue = h.waiting.rtake cap
  order : ∃ before left, h.arrived = before ++ h.waiting ∧ left.Sublist before ∧
    List.Forall₂ carries left h.sent

variable {cap : Nat} {carries : α → β → Prop} {mayDiscard : Prop} {h : History α β}

theorem InOrder.empty : (empty : History α β).InOrder cap carries [] :=
  ⟨(List.rtake_nil ..).symm, [], [], rfl, .refl _, .nil⟩

theorem InOrder.waiting_eq_nil (room : 0 < cap) (ordered : h.InOrder cap carries []) : h.waiting = [] := by
  have none := ordered.recent
  rw [List.rtake, eq_comm, List.drop_eq_nil_iff] at none
  exact List.eq_nil_of_length_eq_zero (by omega)

theorem InOrder.moves (room : 0 < cap) (ordered : h.InOrder cap carries queue)
    (moves : Moves cap carries mayDiscard queue arrivals messages next) :
    (h.after arrivals messages next).InOrder cap carries next := by
  obtain ⟨before, left, split, sublist, carried⟩ := ordered.order
  cases moves with
  | keep =>
    cases queue with
    | nil =>
      refine ⟨(List.rtake_nil ..).symm, before, left, ?_, sublist, ?_⟩
      · simpa [after, ordered.waiting_eq_nil room] using split
      · simpa [after] using carried
    | cons a rest =>
      refine ⟨?_, before, left, ?_, sublist, ?_⟩
      · simpa [after] using ordered.recent
      · simpa [after] using split
      · simpa [after] using carried
  | @enqueue _ a =>
    obtain ⟨b, rest, pushed⟩ := List.exists_cons_of_ne_nil (push_ne_nil cap queue a)
    have recent : push cap queue a = (h.waiting ++ [a]).rtake cap := by
      rw [ordered.recent]
      exact push_rtake cap room h.waiting a
    rw [pushed] at recent ⊢
    refine ⟨recent, before, left, ?_, sublist, ?_⟩
    · simp [after, split]
    · simpa [after] using carried
  | @pass a b carry =>
    rw [ordered.waiting_eq_nil room, List.append_nil] at split
    exact ⟨(List.rtake_nil ..).symm, before ++ [a], left ++ [a], by simp [after, split], sublist.append (.refl _), by
      simpa [after] using List.rel_append carried (.cons carry .nil)⟩
  | @drop a =>
    rw [ordered.waiting_eq_nil room, List.append_nil] at split
    refine ⟨(List.rtake_nil ..).symm, before ++ [a], left, by simp [after, split], ?_, by simpa [after] using carried⟩
    exact sublist.trans (List.sublist_append_left before [a])
  | flush all =>
    refine ⟨(List.rtake_nil ..).symm, before ++ h.waiting, left ++ queue, by simp [after, split], ?_, ?_⟩
    · refine sublist.append ?_
      rw [ordered.recent]
      exact rtake_sublist cap h.waiting
    · exact List.rel_append carried all
  | discard =>
    refine ⟨(List.rtake_nil ..).symm, before ++ h.waiting, left, by simp [after, split], ?_, by simpa [after] using carried⟩
    exact sublist.trans (List.sublist_append_left before h.waiting)

end History

end BoundedQueue
