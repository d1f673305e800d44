import Titun.DeadSession
import Titun.LifeSteps

/-! The timer that waits for an answer, in the lives of the peers of the running program. -/
namespace Titun

open PeerState Transition

variable {HS : Type} {c : Crypto HS}

def PeerEvent.activity : PeerEvent → Activity
  | sendTransport => .sendTransport
  | sendKeepalive => .sendKeepalive
  | recv isKeepalive => .recv isKeepalive
  | cleared => .clear
  | polled .rekeyNoRecv fires => .poll fires
  | _ => .other

def answers (history : List (Instant × PeerEvent)) : List Occurrence := history.map fun o => (o.1, o.2.activity)

variable {l next : Life} {p q : PeerState HS}

theorem PeerState.Awaits.congr (awaits : p.Awaits history) (same : q.rekeyNoRecv = p.rekeyNoRecv) : q.Awaits history := by
  constructor
  · rw [same]
    exact awaits.armed
  · rw [same]
    exact awaits.deadline

theorem Life.Step.undergoes (step : Life.Step l (now, e) next) (before : p.rekeyNoRecv = l.rekeyNoRecv) :
    ∃ q, p.Undergoes (now, e.activity) q ∧ q.rekeyNoRecv = next.rekeyNoRecv := by
  obtain ⟨allowed, rfl⟩ := step
  cases e with
  | sendTransport => exact ⟨_, .sendTransport, congrArg (TimerHandle.adjustAndActivateIfNotActivated · now _) before⟩
  | sendKeepalive => exact ⟨_, .sendKeepalive, before⟩
  | recv => exact ⟨_, .recv, congrArg TimerHandle.deActivate before⟩
  | cleared => exact ⟨_, .clear, congrArg TimerHandle.deActivate before⟩
  | polled kind fires =>
    cases kind with
    | rekeyNoRecv =>
      have fired : (l.rekeyNoRecv.poll now).1 = fires := allowed
      refine ⟨{ p with rekeyNoRecv := (l.rekeyNoRecv.poll now).2 }, .poll ?_, rfl⟩
      rw [before, ← fired]
    | keepalive | persistentKeepalive | stopHandshake | clear => exact ⟨p, .other rfl, before⟩
  | intervalSet interval =>
    refine ⟨p, .other rfl, ?_⟩
    simp only [Life.after]
    split_ifs <;> exact before
  | received | sent | established | unconfirmed | queued | handshakeStarted | scopeDropped | rearmed =>
    exact ⟨p, .other rfl, before⟩

theorem Life.awaits (run : Run Life.Step (.new birth) history l) :
    ∀ p : PeerState HS, p.rekeyNoRecv = l.rekeyNoRecv → p.Awaits (answers history) := by
  have initial (p : PeerState HS) (same : p.rekeyNoRecv = (Life.new birth).rekeyNoRecv) : p.Awaits (answers []) :=
    .idle (congrArg TimerHandle.activated same)
  refine run.history (fun past l => ∀ p : PeerState HS, p.rekeyNoRecv = l.rekeyNoRecv → p.Awaits (answers past)) ?_ initial
  intro past before o after awaits step q same
  obtain ⟨now, e⟩ := o
  have own : ({ q with rekeyNoRecv := before.rekeyNoRecv } : PeerState HS).rekeyNoRecv = before.rekeyNoRecv := rfl
  obtain ⟨r, undergoes, later⟩ := Life.Step.undergoes step own
  have awaiting := (awaits _ own).undergoes undergoes
  rw [answers, List.map_append]
  exact awaiting.congr (same.trans later.symm)

/-- Over every interleaving of operations, the timer of each peer is armed while something sent to it is
unanswered, and its deadline counts from the first of that. -/
theorem Lived.awaits_answers {info : WgInfo} {secret : U8Array 32} {mtu : BitVec 32} {now : Instant}
    {labels : List Program.Label} {s : Lived HS} (run : Run (Step c) (start info secret mtu now) labels s) (ref : PeerRef) :
    (s.program.wg.peers ref).Awaits (answers (s.history ref)) := by
  obtain ⟨birth, lived⟩ := run_follows run ref
  exact Life.awaits lived _ rfl

end Titun
