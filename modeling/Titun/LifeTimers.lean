import Titun.LifeCounts
import Titun.Lib.Deadline

/-! The five timers of a peer: what arms each of them, when it is due and when it fires. -/
namespace Titun

open Life Transition

variable {HS : Type} (c : Crypto HS)

/-- When the timer is due, if it is armed. -/
def TimerHandle.due (t : TimerHandle) : Option Instant := if t.activated then some t.deadline else none

namespace TimerHandle

variable (t : TimerHandle) (now : Instant)

theorem due_on (deadline : Instant) : due ⟨true, deadline⟩ = some deadline := rfl

theorem due_rearm (seconds : Nat) :
    (t.adjustAndActivateSecs now seconds).due = Deadline.after now t.due (.rearm (secs seconds)) := by
  rw [adjustAndActivateSecs, due_on, Deadline.after]

theorem due_arm (seconds : Nat) :
    (t.adjustAndActivateIfNotActivated now seconds).due = Deadline.after now t.due (.arm (secs seconds)) := by
  unfold adjustAndActivateIfNotActivated
  by_cases activated : t.activated = true
  · have armed : t.due = some t.deadline := if_pos activated
    rw [if_pos activated, armed, Deadline.after, Option.getD_some]
  · have off : t.due = none := if_neg activated
    rw [if_neg activated, due_rearm, off, Deadline.after, Deadline.after, Option.getD_none]

theorem due_deActivate : t.deActivate.due = Deadline.after now t.due .lift := rfl

theorem due_le : (∃ due ∈ t.due, due ≤ now) ↔ t.activated = true ∧ t.deadline ≤ now := by
  cases activated : t.activated <;> simp [due, activated]

theorem due_poll : (t.poll now).2.due = Deadline.after now t.due (.poll (t.poll now).1) := by
  unfold poll
  split_ifs
  · rfl
  · cases activated : t.activated <;> simp [due, activated, Deadline.after]

theorem allows_poll : Deadline.Allows now t.due (.poll (t.poll now).1) := by
  exact (t.fires_iff now).trans (t.due_le now).symm

end TimerHandle

/-- What anything that is sent is for the persistent timer. -/
def putOff : Option NonZeroU16 → Deadline.Act Instant
  | none => .other
  | some i => .rearm (secs i.val.toNat)

namespace PeerEvent

/-- What an event is for a timer. -/
def act (interval : Option NonZeroU16) (kind : TimerKind) : PeerEvent → Deadline.Act Instant
  | sendTransport =>
    match kind with
    | .rekeyNoRecv => .arm (secs (KEEPALIVE_TIMEOUT + REKEY_TIMEOUT))
    | .keepalive => .lift
    | .persistentKeepalive => putOff interval
    | _ => .other
  | sendKeepalive =>
    match kind with
    | .keepalive => .lift
    | .persistentKeepalive => putOff interval
    | _ => .other
  | recv isKeepalive =>
    match kind with
    | .rekeyNoRecv => .lift
    | .keepalive => if isKeepalive then .other else .arm (secs KEEPALIVE_TIMEOUT)
    | _ => .other
  | established =>
    match kind with
    | .stopHandshake => .lift
    | .clear => .rearm (secs (3 * REJECT_AFTER_TIME))
    | _ => .other
  | unconfirmed => if kind = .keepalive then .rearm (secs 1) else .other
  | queued => if kind = .stopHandshake then .rearm (secs REKEY_ATTEMPT_TIME) else .other
  | handshakeStarted =>
    match kind with
    | .stopHandshake => .arm (secs REKEY_ATTEMPT_TIME)
    | .clear => .arm (secs (3 * REJECT_AFTER_TIME))
    | _ => .other
  | cleared =>
    match kind with
    | .rekeyNoRecv | .keepalive | .clear => .lift
    | _ => .other
  | rearmed => if kind = .persistentKeepalive then putOff interval else .other
  | polled polls fires => if kind = polls then .poll fires else .other
  | intervalSet i =>
    if kind = .persistentKeepalive ∧ interval ≠ NonZeroU16.new i then if i > 0 then .rearm (secs 5) else .lift
    else .other
  | received _ | sent _ | scopeDropped => .other

def interval (before : Option NonZeroU16) : PeerEvent → Option NonZeroU16
  | intervalSet i => NonZeroU16.new i
  | _ => before

end PeerEvent

/-- What a history is for a timer. -/
def acts (kind : TimerKind) : Option NonZeroU16 → List (Instant × PeerEvent) → List (Instant × Deadline.Act Instant)
  | _, [] => []
  | interval, (now, e) :: rest => (now, e.act interval kind) :: acts kind (e.interval interval) rest

namespace Life

variable {l next : Life}

theorem interval_after (l : Life) (now : Instant) (e : PeerEvent) : (l.after now e).interval = e.interval l.interval := by
  cases e with
  | intervalSet i =>
    simp only [after, PeerEvent.interval]
    by_cases same : l.interval = NonZeroU16.new i
    · rw [if_neg (not_not.mpr same), same]
    · rw [if_pos same]
  | polled kind fires => cases kind <;> rfl
  | _ => rfl

theorem step_putOff (l : Life) (now : Instant) :
    Deadline.Step l.persistentKeepalive.due (now, putOff l.interval) (l.rearm now).due := by
  unfold Life.rearm
  cases l.interval with
  | none => exact ⟨trivial, rfl⟩
  | some i => exact ⟨trivial, l.persistentKeepalive.due_rearm now i.val.toNat⟩

theorem step_intervalSet (l : Life) (now : Instant) (interval : BitVec 16) :
    Deadline.Step l.persistentKeepalive.due (now, (PeerEvent.intervalSet interval).act l.interval .persistentKeepalive)
      (l.after now (.intervalSet interval)).persistentKeepalive.due := by
  simp only [PeerEvent.act, after, true_and]
  by_cases same : l.interval = NonZeroU16.new interval
  · rw [if_neg (not_not.mpr same), if_neg (not_not.mpr same)]
    exact ⟨trivial, rfl⟩
  · rw [if_pos same, if_pos same]
    by_cases on : interval > 0
    · simp only [on, if_true]
      exact ⟨trivial, l.persistentKeepalive.due_rearm now 5⟩
    · simp only [on, if_false]
      exact ⟨trivial, l.persistentKeepalive.due_deActivate now⟩

theorem step_other (same : (next.timer kind) = l.timer kind) :
    Deadline.Step (l.timer kind).due (now, .other) (next.timer kind).due :=
  ⟨trivial, congrArg TimerHandle.due same⟩

theorem step_polled (allowed : l.Allows now (.polled polls fires)) (kind : TimerKind) :
    Deadline.Step (l.timer kind).due (now, (PeerEvent.polled polls fires).act l.interval kind)
      ((l.after now (.polled polls fires)).timer kind).due := by
  obtain rfl := allowed
  have own (t : TimerHandle) : Deadline.Step t.due (now, .poll (t.poll now).1) (t.poll now).2.due :=
    ⟨t.allows_poll now, t.due_poll now⟩
  cases kind <;> cases polls <;> first | exact own _ | exact ⟨trivial, rfl⟩

theorem Step.timer (step : Step l (now, e) next) (kind : TimerKind) :
    Deadline.Step (l.timer kind).due (now, e.act l.interval kind) (next.timer kind).due := by
  obtain ⟨allowed, rfl⟩ := step
  cases e with
  | polled polls fires => exact step_polled allowed kind
  | sendTransport =>
    cases kind with
    | rekeyNoRecv => exact ⟨trivial, l.rekeyNoRecv.due_arm now _⟩
    | keepalive => exact ⟨trivial, l.keepalive.due_deActivate now⟩
    | persistentKeepalive => exact l.step_putOff now
    | stopHandshake | clear => exact step_other rfl
  | sendKeepalive =>
    cases kind with
    | keepalive => exact ⟨trivial, l.keepalive.due_deActivate now⟩
    | persistentKeepalive => exact l.step_putOff now
    | rekeyNoRecv | stopHandshake | clear => exact step_other rfl
  | recv isKeepalive =>
    cases kind with
    | rekeyNoRecv => exact ⟨trivial, l.rekeyNoRecv.due_deActivate now⟩
    | keepalive =>
      cases isKeepalive with
      | true => exact step_other rfl
      | false => exact ⟨trivial, l.keepalive.due_arm now _⟩
    | persistentKeepalive | stopHandshake | clear => exact step_other rfl
  | established =>
    cases kind with
    | stopHandshake => exact ⟨trivial, l.stopHandshake.due_deActivate now⟩
    | clear => exact ⟨trivial, l.clearTimer.due_rearm now _⟩
    | rekeyNoRecv | keepalive | persistentKeepalive => exact step_other rfl
  | unconfirmed =>
    cases kind with
    | keepalive => exact ⟨trivial, l.keepalive.due_rearm now 1⟩
    | rekeyNoRecv | persistentKeepalive | stopHandshake | clear => exact step_other rfl
  | queued =>
    cases kind with
    | stopHandshake => exact ⟨trivial, l.stopHandshake.due_rearm now _⟩
    | rekeyNoRecv | keepalive | persistentKeepalive | clear => exact step_other rfl
  | handshakeStarted =>
    cases kind with
    | stopHandshake => exact ⟨trivial, l.stopHandshake.due_arm now _⟩
    | clear => exact ⟨trivial, l.clearTimer.due_arm now _⟩
    | rekeyNoRecv | keepalive | persistentKeepalive => exact step_other rfl
  | cleared =>
    cases kind with
    | rekeyNoRecv => exact ⟨trivial, l.rekeyNoRecv.due_deActivate now⟩
    | keepalive => exact ⟨trivial, l.keepalive.due_deActivate now⟩
    | clear => exact ⟨trivial, l.clearTimer.due_deActivate now⟩
    | persistentKeepalive | stopHandshake => exact step_other rfl
  | rearmed =>
    cases kind with
    | persistentKeepalive => exact l.step_putOff now
    | rekeyNoRecv | keepalive | stopHandshake | clear => exact step_other rfl
  | intervalSet interval =>
    have others (kind : TimerKind) (other : kind ≠ .persistentKeepalive) :
        (l.after now (.intervalSet interval)).timer kind = l.timer kind := by
      simp only [after]
      split_ifs <;> cases kind <;> first | rfl | exact absurd rfl other
    cases kind with
    | persistentKeepalive => exact l.step_intervalSet now interval
    | rekeyNoRecv | keepalive | stopHandshake | clear => exact step_other (others _ (by simp))
  | received | sent | scopeDropped => cases kind <;> exact step_other rfl

theorem run_timer (run : Run Step l history next) (kind : TimerKind) :
    Run Deadline.Step (l.timer kind).due (acts kind l.interval history) (next.timer kind).due := by
  induction run with
  | nil => exact .nil
  | @cons l o middle rest last one _ ih =>
    obtain ⟨now, e⟩ := o
    have interval : middle.interval = e.interval l.interval := by
      rw [one.2]
      exact l.interval_after now e
    rw [interval] at ih
    exact .cons (Step.timer one kind) ih

end Life

theorem PeerState.life_timer (p : PeerState HS) (kind : TimerKind) : p.life.timer kind = p.timer kind := by
  cases kind <;> rfl

namespace Lived

variable {c} {s : Lived HS}

/-- Over every interleaving of operations, each timer of each peer is armed while something has set it since it was
last lifted or fired, is due when the event that counts has put it, and comes to its action in a poll exactly if it is
due by then. -/
theorem timers_follow_history {info : WgInfo} {secret : U8Array 32} {mtu : BitVec 32} {now : Instant}
    {labels : List Program.Label} (run : Run (Step c) (start info secret mtu now) labels s) (ref : PeerRef)
    (kind : TimerKind) :
    (((s.program.wg.peers ref).timer kind).activated = true ↔
      Deadline.current (acts kind none (s.history ref)) ≠ []) ∧
    (((s.program.wg.peers ref).timer kind).activated = true →
      ∃ o ∈ Deadline.governing (acts kind none (s.history ref)),
        Deadline.due o = some ((s.program.wg.peers ref).timer kind).deadline) ∧
    ∀ l next, Program.Step c s.program l next → l.event = .start (.timer ref kind) →
      ((∃ o ∈ Deadline.governing (acts kind none (s.history ref)), ∃ time ∈ Deadline.due o, time ≤ l.env.now) →
        next.tasks l.task = kind.sections ref) ∧
      ((¬ ∃ o ∈ Deadline.governing (acts kind none (s.history ref)), ∃ time ∈ Deadline.due o, time ≤ l.env.now) →
        next.tasks l.task = []) := by
  obtain ⟨birth, lived⟩ := run_follows run ref
  have lives : Run Deadline.Step none (acts kind none (s.history ref)) ((s.program.wg.peers ref).timer kind).due := by
    have timers := run_timer lived kind
    have off : ((Life.new birth).timer kind).due = none := by cases kind <;> rfl
    rw [off, life, PeerState.life_timer] at timers
    exact timers
  have follows := Deadline.follows lives
  have armed : ((s.program.wg.peers ref).timer kind).activated = true ↔
      ((s.program.wg.peers ref).timer kind).due.isSome = true := by
    cases on : ((s.program.wg.peers ref).timer kind).activated <;> simp [TimerHandle.due, on]
  have met (time : Instant) : (∃ o ∈ Deadline.governing (acts kind none (s.history ref)),
      ∃ due ∈ Deadline.due o, due ≤ time) ↔ (((s.program.wg.peers ref).timer kind).poll time).1 = true := by
    rw [TimerHandle.fires_iff, ← TimerHandle.due_le, follows]
    simp only [Option.mem_def, Option.bind_eq_some_iff]
    constructor
    · rintro ⟨o, governs, due, sets, early⟩
      exact ⟨due, ⟨o, governs, sets⟩, early⟩
    · rintro ⟨due, ⟨o, governs, sets⟩, early⟩
      exact ⟨o, governs, due, sets, early⟩
  refine ⟨armed.trans (Deadline.isSome_iff lives), ?_, ?_⟩
  · intro on
    have due : ((s.program.wg.peers ref).timer kind).due = some ((s.program.wg.peers ref).timer kind).deadline := if_pos on
    exact Option.bind_eq_some_iff.mp (follows.symm.trans due)
  · intro l next step polls
    cases step with
    | proceed => cases polls
    | @start i op env wg task idle enabled ok =>
      cases polls
      have leads : task = if (((s.program.wg.peers ref).timer kind).poll env.now).1 then kind.sections ref else [] :=
        (Prod.mk.inj (Except.ok.inj ok)).2.symm
      dsimp only
      rw [Function.update_self, leads, met]
      constructor
      · intro fires
        exact if_pos fires
      · intro waits
        exact if_neg waits

theorem timers_follow_history_session :
    ∃ s, Run (Step Crypto.symbolic) (start ⟨zeros 32, 0, 0⟩ (zeros 32) 1280 0) Traffic.sampleSession s ∧
      ((s.program.wg.peers 0).timer .clear).activated = true ∧
      ∃ o ∈ Deadline.governing (acts .clear none (s.history 0)),
        Deadline.due o = some ((s.program.wg.peers 0).timer .clear).deadline := by
  have followed : (((Program.start ⟨zeros 32, 0, 0⟩ (zeros 32) 1280 0).follow Crypto.symbolic 1
      Traffic.sampleSession).map fun s => ((s.wg.peers 0).timer .clear).activated) = some true := by decide +kernel
  obtain ⟨program, follows, armed⟩ := Option.map_eq_some_iff.mp followed
  obtain ⟨run, _⟩ := Program.run_of_follow Crypto.symbolic Program.start_within follows
  obtain ⟨history, lived⟩ := run_of_program (run.mono fun _ _ _ step => step.1) fun _ => []
  exact ⟨⟨program, history⟩, lived, armed, (timers_follow_history lived 0 .clear).2.1 armed⟩

end Lived

end Titun
