import Titun.PeerTasks
import Titun.Lib.Since
import Titun.Lib.Transition

/-! The timer that notices that nothing comes back: how its deadline follows from what the peer has sent
and received. -/
namespace Titun

open Transition

variable {HS : Type}

inductive Activity where
  | sendTransport
  | sendKeepalive
  /-- An authenticated transport message. -/
  | recv (isKeepalive : Bool)
  | clear
  /-- The task of `rekey_no_recv` is polled, and the timer fires or not. -/
  | poll (fires : Bool)
  /-- Anything that leaves the timer alone. -/
  | other
  deriving DecidableEq

abbrev Occurrence := Instant × Activity

namespace Occurrence

/-- Something that is not a keep-alive was sent. -/
def sends (o : Occurrence) : Bool := o.2 = .sendTransport

/-- The peer was heard of, forgotten, or given up. -/
def resets : Occurrence → Bool
  | (_, .recv _) | (_, .clear) | (_, .poll true) => true
  | _ => false

end Occurrence

/-- What was sent since the peer was last heard of, forgotten, or given up. -/
def unansweredSends (history : List Occurrence) : List Occurrence :=
  Since.pending Occurrence.sends Occurrence.resets history

namespace PeerState

/-- What an activity does to the peer. -/
inductive Undergoes (p : PeerState HS) : Occurrence → PeerState HS → Prop where
  | sendTransport : Undergoes p (now, .sendTransport) (p.onSendTransport now)
  | sendKeepalive : Undergoes p (now, .sendKeepalive) (p.onSendKeepalive now)
  | recv : Undergoes p (now, .recv isKeepalive) (p.onRecv now isKeepalive)
  | clear : Undergoes p (now, .clear) p.clear.2
  | poll : p.rekeyNoRecv.poll now = (fires, handle) →
      Undergoes p (now, .poll fires) (p.setTimer handle .rekeyNoRecv)
  | other : q.rekeyNoRecv = p.rekeyNoRecv → Undergoes p (now, .other) q

/-- The timer is armed if something sent is unanswered, and its deadline counts from the first of it. -/
structure Awaits (p : PeerState HS) (history : List Occurrence) : Prop where
  armed : p.rekeyNoRecv.activated = true ↔ unansweredSends history ≠ []
  deadline : ∀ sent ∈ (unansweredSends history).head?,
    p.rekeyNoRecv.deadline = sent.1 + secs (KEEPALIVE_TIMEOUT + REKEY_TIMEOUT)

namespace Awaits

variable {p q : PeerState HS}

theorem of_reset (history : List Occurrence) (reset : Occurrence.resets o = true)
    (off : q.rekeyNoRecv.activated = false) : q.Awaits (history ++ [o]) := by
  have answered : unansweredSends (history ++ [o]) = [] := Since.pending_stop _ _ history reset
  constructor
  · simp [answered, off]
  · simp [answered]

theorem of_ignored (awaits : p.Awaits history) (goesOn : Occurrence.resets o = false)
    (notSent : Occurrence.sends o = false) (same : q.rekeyNoRecv = p.rekeyNoRecv) : q.Awaits (history ++ [o]) := by
  have still : unansweredSends (history ++ [o]) = unansweredSends history :=
    Since.pending_other _ _ history goesOn notSent
  constructor
  · rw [same, still]
    exact awaits.armed
  · rw [same, still]
    exact awaits.deadline

theorem onSendTransport (awaits : p.Awaits history) (now : Instant) :
    (p.onSendTransport now).Awaits (history ++ [(now, .sendTransport)]) := by
  have more : unansweredSends (history ++ [(now, .sendTransport)]) = unansweredSends history ++ [(now, .sendTransport)] :=
    Since.pending_start _ _ history rfl rfl
  have timer : (p.onSendTransport now).rekeyNoRecv =
      p.rekeyNoRecv.adjustAndActivateIfNotActivated now (KEEPALIVE_TIMEOUT + REKEY_TIMEOUT) := rfl
  rw [TimerHandle.adjustAndActivateIfNotActivated] at timer
  cases unanswered : unansweredSends history with
  | nil =>
    have off : p.rekeyNoRecv.activated = false := by
      simpa [unanswered] using awaits.armed
    rw [off] at timer
    constructor
    · simp [more, timer, TimerHandle.adjustAndActivateSecs]
    · simp [more, unanswered, timer, TimerHandle.adjustAndActivateSecs]
  | cons first rest =>
    have armed : p.rekeyNoRecv.activated = true := by
      simp [awaits.armed, unanswered]
    rw [armed, if_pos rfl] at timer
    constructor
    · simp [more, timer, armed]
    · have kept := awaits.deadline
      simpa [more, unanswered, timer] using kept

/-- The timer fires when the first of what is unanswered was sent long enough ago. -/
theorem fires_iff (awaits : p.Awaits history) (now : Instant) : (p.rekeyNoRecv.poll now).1 = true ↔
    ∃ sent ∈ (unansweredSends history).head?, sent.1 + secs (KEEPALIVE_TIMEOUT + REKEY_TIMEOUT) ≤ now := by
  cases unanswered : unansweredSends history with
  | nil =>
    have off : p.rekeyNoRecv.activated = false := by
      simpa [unanswered] using awaits.armed
    simp [TimerHandle.poll, off, apply_ite Prod.fst]
  | cons first rest =>
    have armed : p.rekeyNoRecv.activated = true := by
      simp [awaits.armed, unanswered]
    have due := awaits.deadline first (by simp [unanswered])
    simp [TimerHandle.poll, armed, due, apply_ite Prod.fst]

theorem poll (awaits : p.Awaits history) (polled : p.rekeyNoRecv.poll now = (fires, handle)) :
    (p.setTimer handle .rekeyNoRecv).Awaits (history ++ [(now, .poll fires)]) := by
  have timer : (p.setTimer handle .rekeyNoRecv).rekeyNoRecv = handle := rfl
  unfold TimerHandle.poll at polled
  split_ifs at polled with early
  · obtain ⟨rfl, rfl⟩ := Prod.mk.inj polled
    exact awaits.of_ignored rfl rfl rfl
  · obtain ⟨rfl, rfl⟩ := Prod.mk.inj polled
    cases activated : p.rekeyNoRecv.activated with
    | true => exact of_reset history rfl rfl
    | false =>
      have answered : unansweredSends history = [] := by
        simpa [activated] using awaits.armed
      have still : unansweredSends (history ++ [(now, .poll false)]) = unansweredSends history :=
        Since.pending_other _ _ history rfl rfl
      rw [answered] at still
      constructor
      · simp [still, timer]
      · simp [still]

theorem undergoes (awaits : p.Awaits history) (step : p.Undergoes o q) : q.Awaits (history ++ [o]) := by
  cases step with
  | sendTransport => exact awaits.onSendTransport _
  | sendKeepalive => exact awaits.of_ignored rfl rfl rfl
  | recv => exact of_reset history rfl rfl
  | clear => exact of_reset history rfl rfl
  | poll polled => exact awaits.poll polled
  | other same => exact awaits.of_ignored rfl rfl same

end Awaits

theorem Awaits.idle {p : PeerState HS} (off : p.rekeyNoRecv.activated = false) : p.Awaits [] := by
  constructor
  · simp [unansweredSends, off]
  · simp [unansweredSends]

theorem Awaits.run {p q : PeerState HS} (off : p.rekeyNoRecv.activated = false) (run : Run Undergoes p history q) :
    q.Awaits history :=
  run.history (fun past p => p.Awaits past) (fun _ _ _ _ awaits step => awaits.undergoes step) (.idle off)

theorem unansweredSends_sent (member : sent ∈ unansweredSends (before ++ o :: after)) (reset : o.resets = true) :
    sent ∈ after ∧ sent.2 = .sendTransport := by
  rw [unansweredSends, Since.pending_after_stop _ _ before after reset] at member
  obtain ⟨later, sends⟩ := Since.mem_of_mem_pending _ _ member
  exact ⟨later, by simpa [Occurrence.sends] using sends⟩

end PeerState

open PeerState in
/-- In every history of a peer the timer is armed while something sent is unanswered, its deadline counts from
the first of that, and it fires from the deadline on, once. -/
theorem rekey_no_recv_follows_history {p q : PeerState HS} {history : List Occurrence}
    (off : p.rekeyNoRecv.activated = false) (run : Run Undergoes p history q) :
    (q.rekeyNoRecv.activated = true ↔ unansweredSends history ≠ []) ∧
    (∀ sent ∈ (unansweredSends history).head?,
      q.rekeyNoRecv.deadline = sent.1 + secs (KEEPALIVE_TIMEOUT + REKEY_TIMEOUT)) ∧
    (∀ before now fires after, history = before ++ (now, .poll fires) :: after →
      (fires = true ↔
        ∃ sent ∈ (unansweredSends before).head?, sent.1 + secs (KEEPALIVE_TIMEOUT + REKEY_TIMEOUT) ≤ now)) ∧
    ∀ before first between second after,
      history = before ++ (first, .poll true) :: between ++ (second, .poll true) :: after →
      ∃ sent ∈ between, sent.2 = .sendTransport := by
  have onTime (before now fires after) (split : history = before ++ (now, .poll fires) :: after) :
      fires = true ↔
        ∃ sent ∈ (unansweredSends before).head?, sent.1 + secs (KEEPALIVE_TIMEOUT + REKEY_TIMEOUT) ≤ now := by
    subst split
    obtain ⟨r, s, earlier, polled, _⟩ := run.split
    have awaits : r.Awaits before := .run off earlier
    cases polled with
    | poll polled =>
      rw [← awaits.fires_iff now, polled]
  have awaits : q.Awaits history := .run off run
  refine ⟨awaits.armed, awaits.deadline, onTime, ?_⟩
  intro before first between second after split
  obtain ⟨sent, member, _⟩ := (onTime _ _ _ _ split).mp rfl
  obtain ⟨later, sends⟩ := unansweredSends_sent (List.mem_of_mem_head? member) rfl
  exact ⟨sent, later, sends⟩

theorem rekey_no_recv_counts_from_first :
    (((PeerState.new (zeros 32) 0 : PeerState Unit).onSendTransport (secs 1)).onSendTransport (secs 5)).rekeyNoRecv.deadline =
      secs 1 + secs 15 :=
  (rekey_no_recv_follows_history rfl (.cons .sendTransport (.cons .sendTransport .nil))).2.1
    (secs 1, .sendTransport) rfl

end Titun
