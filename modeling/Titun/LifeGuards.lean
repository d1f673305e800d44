import Titun.LifeSteps

/-! Whatever has to end has a timer that ends it: keys, handshakes that are not answered, and silence. -/
namespace Titun

open PeerState Life Transition

variable {HS : Type} (c : Crypto HS)

namespace Life

/-- What has to end is guarded by a timer, or its end is under way. -/
structure Guarded (clearing dropping rearming : Prop) (l : Life) : Prop where
  erases : ∀ made ∈ l.sessions.head?, l.clearTimer = ⟨true, made + secs (3 * REJECT_AFTER_TIME)⟩ ∨ clearing
  clears : l.handshaking = true → l.clearTimer.activated = true ∨ clearing
  stops : l.handshaking = true → l.stopHandshake.activated = true ∨ dropping
  silent : l.interval = none → l.persistentKeepalive.activated = false
  speaks : l.interval ≠ none → l.persistentKeepalive.activated = true ∨ rearming

variable {clearing dropping rearming clearing' dropping' rearming' : Prop} {l next : Life}

theorem Guarded.new (now : Instant) : (Life.new now).Guarded clearing dropping rearming where
  erases _ member := by cases member
  clears handshaking := by cases handshaking
  stops handshaking := by cases handshaking
  silent _ := rfl
  speaks set := absurd rfl set

theorem Guarded.mono (guarded : l.Guarded clearing dropping rearming) (clear : clearing → clearing')
    (drop : dropping → dropping') (rearm : rearming → rearming') : l.Guarded clearing' dropping' rearming' where
  erases made member := (guarded.erases made member).imp_right clear
  clears handshaking := (guarded.clears handshaking).imp_right clear
  stops handshaking := (guarded.stops handshaking).imp_right drop
  silent := guarded.silent
  speaks set := (guarded.speaks set).imp_right rearm

theorem rearm_eq (l : Life) (now : Instant) :
    l.interval = none ∧ l.rearm now = l.persistentKeepalive ∨ l.interval ≠ none ∧ (l.rearm now).activated = true := by
  cases interval : l.interval with
  | none => simp [rearm, interval]
  | some i => simp [rearm, interval, TimerHandle.adjustAndActivateSecs]

theorem Guarded.rearm (guarded : l.Guarded clearing dropping rearming) (now : Instant) :
    { l with persistentKeepalive := l.rearm now }.Guarded clearing dropping rearming' := by
  refine ⟨guarded.erases, guarded.clears, guarded.stops, ?_, ?_⟩
  · intro unset
    rcases l.rearm_eq now with ⟨_, same⟩ | ⟨set, _⟩
    · exact same.symm ▸ guarded.silent unset
    · exact absurd unset set
  · intro set
    rcases l.rearm_eq now with ⟨unset, _⟩ | ⟨_, armed⟩
    · exact absurd unset set
    · exact .inl armed

theorem Guarded.polled (guarded : l.Guarded clearing dropping rearming) {kind : TimerKind} {now : Instant}
    (clear : kind = .clear → (l.clearTimer.poll now).1 = true → clearing)
    (stop : kind = .stopHandshake → (l.stopHandshake.poll now).1 = true → dropping)
    (persist : kind = .persistentKeepalive → (l.persistentKeepalive.poll now).1 = true → rearming) :
    (l.setTimer ((l.timer kind).poll now).2 kind).Guarded clearing dropping rearming := by
  cases kind with
  | rekeyNoRecv | keepalive => exact ⟨guarded.erases, guarded.clears, guarded.stops, guarded.silent, guarded.speaks⟩
  | persistentKeepalive =>
    refine ⟨guarded.erases, guarded.clears, guarded.stops, ?_, ?_⟩
    · intro unset
      exact TimerHandle.poll_off (guarded.silent unset) now
    · intro set
      exact TimerHandle.poll_armed (guarded.speaks set) (persist rfl)
  | stopHandshake =>
    refine ⟨guarded.erases, guarded.clears, ?_, guarded.silent, guarded.speaks⟩
    intro handshaking
    exact TimerHandle.poll_armed (guarded.stops handshaking) (stop rfl)
  | clear =>
    refine ⟨?_, ?_, guarded.stops, guarded.silent, guarded.speaks⟩
    · intro made newest
      exact TimerHandle.poll_kept rfl (guarded.erases made newest) (clear rfl)
    · intro handshaking
      exact TimerHandle.poll_armed (guarded.clears handshaking) (clear rfl)

theorem Guarded.handshakeStarted (guarded : l.Guarded clearing dropping rearming) (now : Instant) :
    (l.after now .handshakeStarted).Guarded clearing dropping rearming := by
  refine ⟨?_, ?_, ?_, guarded.silent, guarded.speaks⟩
  · intro made newest
    rcases guarded.erases made newest with armed | clearing
    · left
      simp only [after, TimerHandle.adjustAndActivateIfNotActivated, armed, if_true]
    · exact .inr clearing
  · intro _
    left
    simp only [after, TimerHandle.adjustAndActivateIfNotActivated]
    split_ifs with on
    · exact on
    · rfl
  · intro _
    left
    simp only [after, TimerHandle.adjustAndActivateIfNotActivated]
    split_ifs with on
    · exact on
    · rfl

theorem Guarded.intervalSet (guarded : l.Guarded clearing dropping rearming) (now : Instant) (interval : BitVec 16) :
    (l.after now (.intervalSet interval)).Guarded clearing dropping rearming := by
  simp only [after]
  by_cases changed : l.interval ≠ NonZeroU16.new interval
  · rw [if_pos changed]
    refine ⟨guarded.erases, guarded.clears, guarded.stops, ?_, ?_⟩
    · intro unset
      have zero : ¬ interval > 0 := by
        intro positive
        simp [NonZeroU16.new, (BitVec.pos_iff_ne_zero interval).mp positive] at unset
      simp only [zero, if_false]
      rfl
    · intro set
      have positive : interval > 0 := by
        by_contra zero
        simp [NonZeroU16.new, BitVec.pos_iff_ne_zero] at zero set
        exact set zero
      simp only [positive, if_true]
      exact .inl rfl
  · rw [if_neg changed]
    exact guarded

theorem Guarded.cleared (guarded : l.Guarded clearing dropping rearming) (now : Instant) :
    (l.after now .cleared).Guarded clearing' dropping' rearming where
  erases _ newest := by cases newest
  clears handshaking := by cases handshaking
  stops handshaking := by cases handshaking
  silent := guarded.silent
  speaks := guarded.speaks

theorem Guarded.scopeDropped (guarded : l.Guarded clearing dropping rearming) (now : Instant) :
    (l.after now .scopeDropped).Guarded clearing dropping' rearming where
  erases := guarded.erases
  clears handshaking := by cases handshaking
  stops handshaking := by cases handshaking
  silent := guarded.silent
  speaks := guarded.speaks

theorem Guarded.established (guarded : l.Guarded clearing dropping rearming) (now : Instant) :
    (l.after now .established).Guarded clearing dropping rearming where
  erases made newest := by
    obtain rfl := Option.some.inj newest
    exact .inl rfl
  clears handshaking := by cases handshaking
  stops handshaking := by cases handshaking
  silent := guarded.silent
  speaks := guarded.speaks

theorem Guarded.after (guarded : l.Guarded clearing dropping rearming) (allowed : l.Allows now e)
    (clear : e = .polled .clear true → clearing) (stop : e = .polled .stopHandshake true → dropping)
    (persist : e = .polled .persistentKeepalive true → rearming) :
    (l.after now e).Guarded clearing dropping rearming := by
  cases e with
  | cleared => exact guarded.cleared now
  | scopeDropped => exact guarded.scopeDropped now
  | rearmed => exact guarded.rearm now
  | established => exact guarded.established now
  | handshakeStarted => exact guarded.handshakeStarted now
  | intervalSet interval => exact guarded.intervalSet now interval
  | polled kind fires =>
    refine guarded.polled ?_ ?_ ?_
    · rintro rfl fired
      exact clear (congrArg _ (allowed.symm.trans fired))
    · rintro rfl fired
      exact stop (congrArg _ (allowed.symm.trans fired))
    · rintro rfl fired
      exact persist (congrArg _ (allowed.symm.trans fired))
  | sendTransport | sendKeepalive =>
    have rearmed : Guarded clearing dropping rearming _ := guarded.rearm now
    exact ⟨rearmed.erases, rearmed.clears, rearmed.stops, rearmed.silent, rearmed.speaks⟩
  | queued => exact ⟨guarded.erases, guarded.clears, fun _ => .inl rfl, guarded.silent, guarded.speaks⟩
  | received | sent | recv | unconfirmed =>
    exact ⟨guarded.erases, guarded.clears, guarded.stops, guarded.silent, guarded.speaks⟩

theorem Guarded.ends (guarded : l.Guarded (clearing ∨ e = .cleared) (dropping ∨ e = .scopeDropped) (rearming ∨ e = .rearmed))
    (allowed : l.Allows now e) (clear : e = .polled .clear true → clearing)
    (stop : e = .polled .stopHandshake true → dropping) (persist : e = .polled .persistentKeepalive true → rearming) :
    (l.after now e).Guarded clearing dropping rearming := by
  by_cases cleared : e = .cleared
  · subst cleared
    exact (guarded.cleared now).mono id id (·.resolve_right (by simp))
  by_cases dropped : e = .scopeDropped
  · subst dropped
    exact (guarded.scopeDropped now).mono (·.resolve_right cleared) id (·.resolve_right (by simp))
  by_cases rearmed : e = .rearmed
  · subst rearmed
    exact (guarded.rearm now).mono (·.resolve_right cleared) (·.resolve_right dropped) id
  · have kept := guarded.mono (·.resolve_right cleared) (·.resolve_right dropped) (·.resolve_right rearmed)
    exact kept.after allowed clear stop persist

theorem Passes.guarded (passes : l.Passes now events next)
    (guarded : l.Guarded (clearing ∨ .cleared ∈ events) (dropping ∨ .scopeDropped ∈ events) (rearming ∨ .rearmed ∈ events))
    (clear : .polled .clear true ∈ events → clearing) (stop : .polled .stopHandshake true ∈ events → dropping)
    (persist : .polled .persistentKeepalive true ∈ events → rearming) : next.Guarded clearing dropping rearming := by
  induction events generalizing l with
  | nil =>
    cases passes
    exact guarded.mono (·.resolve_right (List.not_mem_nil)) (·.resolve_right (List.not_mem_nil))
      (·.resolve_right (List.not_mem_nil))
  | cons e rest ih =>
    cases passes with
    | cons one more =>
      obtain ⟨allowed, rfl⟩ := one
      apply ih more
      · have split {pending : Prop} {x : PeerEvent} (under : pending ∨ x ∈ e :: rest) :
            (pending ∨ x ∈ rest) ∨ e = x := by
          rcases under with under | member
          · exact .inl (.inl under)
          · rcases List.mem_cons.mp member with rfl | later
            · exact .inr rfl
            · exact .inl (.inr later)
        refine (guarded.mono split split split).ends allowed ?_ ?_ ?_
        · rintro rfl
          exact .inl (clear List.mem_cons_self)
        · rintro rfl
          exact .inl (stop List.mem_cons_self)
        · rintro rfl
          exact .inl (persist List.mem_cons_self)
      · exact fun member => clear (List.mem_cons_of_mem _ member)
      · exact fun member => stop (List.mem_cons_of_mem _ member)
      · exact fun member => persist (List.mem_cons_of_mem _ member)

end Life

namespace Program

variable {c} {s next : Program HS} {l : Label} {ref : PeerRef}

/-- A task comes to a section. -/
def Pending (s : Program HS) (sec : Section HS) : Prop := ∃ i, sec ∈ s.tasks i

theorem Pending.step {sec : Section HS} (pending : s.Pending sec) (step : Step c s l next) :
    next.Pending sec ∨ s.running l = some sec := by
  obtain ⟨i, member⟩ := pending
  by_cases here : i = l.task
  swap
  · exact .inl ⟨i, by rwa [step.idle here]⟩
  subst here
  cases step with
  | start idle enabled ok =>
    rw [idle] at member
    cases member
  | @proceed i other rest more env wg head free ok =>
    rw [head] at member
    rcases List.mem_cons.mp member with rfl | later
    · right
      rw [running, head]
      rfl
    · left
      exact ⟨i, by simp [later]⟩

theorem not_polled (sec : Section HS) (env : Env) (wg : WgState HS) (kind : TimerKind) (fires : Bool) :
    .polled kind fires ∉ sec.lifeEvents c env wg := by
  cases sec with
  | decide p addr selfId peer =>
    simp only [Section.lifeEvents]
    split <;> simp
  | accept | finish | doHandshake | send | keepalive | configure =>
    simp only [Section.lifeEvents, transmitted]
    split_ifs <;> simp
  | _ => simp [Section.lifeEvents]

theorem Step.fires {kind : TimerKind} {sec : Section HS} (step : Step c s l next)
    (polled : .polled kind true ∈ s.lifeEvents c l ref) (member : sec ∈ kind.sections ref) : next.Pending sec := by
  cases step with
  | @start i op env wg task idle enabled ok =>
    cases op with
    | timer peer polls =>
      have leads : task = if (((s.wg.peers peer).timer polls).poll env.now).1 then polls.sections peer else [] :=
        (Prod.mk.inj (Except.ok.inj ok)).2.symm
      simp only [lifeEvents, Op.lifeEvents] at polled
      split_ifs at polled with about
      · subst about
        obtain ⟨rfl, fired⟩ := PeerEvent.polled.inj (List.mem_singleton.mp polled)
        refine ⟨i, ?_⟩
        dsimp only
        rw [Function.update_self, leads, ← fired]
        exact member
      · cases polled
    | resend loop =>
      simp only [lifeEvents, Op.lifeEvents] at polled
      split_ifs at polled
      · simp at polled
      · cases polled
    | _ => cases polled
  | @proceed i other rest more env wg head free ok =>
    have runs : s.running ⟨i, .proceed, env⟩ = some other := by rw [running, head]; rfl
    simp only [lifeEvents, runs] at polled
    split_ifs at polled
    · exact absurd polled (not_polled other env s.wg kind true)
    · cases polled

theorem running_events {sec : Section HS} (runs : s.running l = some sec) (about : sec.peer? = some ref) :
    s.lifeEvents c l ref = sec.lifeEvents c l.env s.wg := by
  obtain ⟨i, event, env⟩ := l
  cases event with
  | start op => cases runs
  | proceed => simp only [lifeEvents, runs, about, if_true]

/-- Each end that a peer needs is guarded by a timer, or a task has come to it. -/
def Guarded (s : Program HS) (ref : PeerRef) : Prop :=
  (s.wg.peers ref).life.Guarded (s.Pending (.clear ref)) (s.Pending (.dropScope ref)) (s.Pending (.rearm ref))

theorem Step.guarded (step : Step c s l next) (guarded : s.Guarded ref) : next.Guarded ref := by
  unfold Guarded
  by_cases adds : s.Adds l ref
  · rw [step.born adds]
    exact .new _
  have ends {sec : Section HS} {e : PeerEvent} (about : sec.peer? = some ref)
      (only : ∀ env wg, sec.lifeEvents c env wg = [e]) (pending : s.Pending sec) :
      next.Pending sec ∨ e ∈ s.lifeEvents c l ref := by
    refine (pending.step step).imp_right fun runs => ?_
    rw [running_events runs about, only]
    exact List.mem_singleton_self e
  refine (step.passes adds).guarded (guarded.mono (ends rfl ?_) (ends rfl ?_) (ends rfl ?_)) ?_ ?_ ?_
  · intro env wg
    rfl
  · intro env wg
    rfl
  · intro env wg
    rfl
  · exact fun polled => step.fires polled (by simp [TimerKind.sections])
  · exact fun polled => step.fires polled (by simp [TimerKind.sections])
  · exact fun polled => step.fires polled (by simp [TimerKind.sections])

theorem Step.due {kind : TimerKind} {sec : Section HS} (step : Step c s l next)
    (polls : l.event = .start (.timer ref kind)) (member : sec ∈ kind.sections ref)
    (armed : ((s.wg.peers ref).timer kind).activated = true)
    (due : ((s.wg.peers ref).timer kind).deadline ≤ l.env.now) : next.Pending sec := by
  refine step.fires ?_ member
  obtain ⟨i, event, env⟩ := l
  obtain rfl := polls
  have fired := (TimerHandle.fires_iff _ _).mpr ⟨armed, due⟩
  simp only [lifeEvents, Op.lifeEvents, if_true, fired]
  exact List.mem_singleton_self _

theorem Pending.start {sec : Section HS} (pending : s.Pending sec) (step : Step c s l next)
    (starts : l.event = .start op) : next.Pending sec := by
  refine (pending.step step).resolve_right fun runs => ?_
  simp only [running, starts] at runs
  cases runs

theorem run_guarded {info : WgInfo} {secret : U8Array 32} {mtu : BitVec 32} {now : Instant} {labels : List Label}
    (run : Run (Step c) (start info secret mtu now) labels s) (ref : PeerRef) : s.Guarded ref :=
  run.invariant (fun s => s.Guarded ref) (fun _ _ _ guarded step => step.guarded guarded) (.new now)

/-- Over every interleaving of operations, a peer that has sessions has its clear timer armed for
`3 * REJECT_AFTER_TIME` after the newest was made, or a task has come to clear it; so has a peer whose handshake is
resent, at some time. When the timer is polled after its deadline a task comes to clear the peer, and the section it
comes to leaves neither session, pending handshake nor queued packet. -/
theorem keys_erased {info : WgInfo} {secret : U8Array 32} {mtu : BitVec 32} {now : Instant} {labels : List Label}
    (run : Run (Step c) (start info secret mtu now) labels s) (ref : PeerRef) :
    (∀ t ∈ (s.wg.peers ref).transports.val.head?,
      (s.wg.peers ref).clearTimer = ⟨true, t.created + secs (3 * REJECT_AFTER_TIME)⟩ ∨ s.Pending (.clear ref)) ∧
    ((s.wg.peers ref).handshakeResendScope.isSome = true →
      (s.wg.peers ref).clearTimer.activated = true ∨ s.Pending (.clear ref)) ∧
    (∀ l next, Step c s l next → l.event = .start (.timer ref .clear) →
      ∀ t ∈ (s.wg.peers ref).transports.val.head?, t.created + secs (3 * REJECT_AFTER_TIME) ≤ l.env.now →
        next.Pending (.clear ref)) ∧
    ∀ l next, Step c s l next → s.running l = some (.clear ref) →
      (next.wg.peers ref).transports = .empty ∧ (next.wg.peers ref).handshake = none ∧ (next.wg.peers ref).queue = [] := by
  have guarded := run_guarded run ref
  have armed (t : Transport) (newest : t ∈ (s.wg.peers ref).transports.val.head?) :
      (s.wg.peers ref).clearTimer = ⟨true, t.created + secs (3 * REJECT_AFTER_TIME)⟩ ∨ s.Pending (.clear ref) := by
    apply guarded.erases
    rw [life, List.head?_map]
    exact Option.mem_map_of_mem Transport.created newest
  refine ⟨armed, guarded.clears, ?_, ?_⟩
  · intro l next step polls t newest late
    rcases armed t newest with handle | pending
    · apply step.due polls (List.mem_singleton_self _)
      · rw [PeerState.timer, handle]
      · rw [PeerState.timer, handle]
        exact late
    · exact pending.start step polls
  · intro l next step runs
    cases step with
    | start idle enabled ok => cases runs
    | @proceed i sec rest more env wg head free ok =>
      have same : s.running ⟨i, .proceed, env⟩ = some sec := by rw [running, head]; rfl
      obtain rfl := Option.some.inj (same.symm.trans runs)
      obtain ⟨rfl, rfl⟩ := Prod.mk.inj (Except.ok.inj ok)
      have cleared : (s.wg.clearPeer env ref).peers ref = (s.wg.peers ref).clear.2 := by
        simp [WgState.clearPeer, WgState.dropGuards_peers, WgState.setPeerState]
      rw [cleared]
      exact ⟨rfl, rfl, rfl⟩

theorem keys_erased_session :
    ∃ s t, Run (Step Crypto.symbolic) (start ⟨zeros 32, 0, 0⟩ (zeros 32) 1280 0) Traffic.sampleSession s ∧
      (s.wg.peers 0).transports.val.head? = some t ∧ t.created = 0 ∧
      ((s.wg.peers 0).clearTimer = ⟨true, t.created + secs (3 * REJECT_AFTER_TIME)⟩ ∨ s.Pending (.clear 0)) := by
  have followed : (((start ⟨zeros 32, 0, 0⟩ (zeros 32) 1280 0).follow Crypto.symbolic 1 Traffic.sampleSession).map
      fun s => (s.wg.peers 0).transports.val.head?.map Transport.created) = some (some 0) := by decide +kernel
  obtain ⟨s, follows, seen⟩ := Option.map_eq_some_iff.mp followed
  obtain ⟨t, newest, young⟩ := Option.map_eq_some_iff.mp seen
  obtain ⟨run, _⟩ := run_of_follow Crypto.symbolic start_within follows
  have steps := run.mono fun _ _ _ step => step.1
  exact ⟨s, t, steps, newest, young, (keys_erased steps 0).1 t newest⟩

theorem dropGuards_loops (wg : WgState HS) (env : Env) (ids : List WgId) : (wg.dropGuards env ids).loops = wg.loops := by
  obtain ⟨_, _, same⟩ := WgState.dropGuards_eq wg env ids
  rw [same]

theorem resendIteration_stops {wg next : WgState HS} (ok : wg.resendIteration c env loop = .ok (next, sent))
    (stopped : (wg.peers loop.peer).handshakeResendScope = none) : next.loops = wg.loops.erase loop := by
  obtain ⟨⟨middle, _⟩, resent, ok⟩ := bind_eq_ok.mp ok
  have scope : (middle.peers loop.peer).handshakeResendScope = none ∧ middle.loops = wg.loops := by
    simp only [WgState.resendInitiation] at resent
    split at resent
    · obtain ⟨rfl, _⟩ := Prod.mk.inj (Except.ok.inj resent)
      exact ⟨stopped, rfl⟩
    · split at resent
      · obtain ⟨rfl, _⟩ := Prod.mk.inj (Except.ok.inj resent)
        refine ⟨?_, dropGuards_loops _ env [env.id]⟩
        rw [← stopped]
        exact congrArg (fun peers : PeerRef → PeerState HS => (peers loop.peer).handshakeResendScope)
          (WgState.dropGuards_peers { wg with idMap := wg.idMap.insert env.id loop.peer } env [env.id])
      · obtain ⟨_, _, resent⟩ := bind_eq_ok.mp resent
        obtain ⟨rfl, _⟩ := Prod.mk.inj (Except.ok.inj resent)
        refine ⟨?_, dropGuards_loops ..⟩
        simp [WgState.dropGuards_peers, WgState.setPeerState, countSend, stopped]
  dsimp only at ok
  rw [if_neg (by simp [scope.1])] at ok
  obtain ⟨rfl, _⟩ := Prod.mk.inj (Except.ok.inj ok)
  exact congrArg (·.erase loop) scope.2

/-- Over every interleaving of operations, a handshake is resent only while the timer that gives it up is armed or
a task has come to give it up. When the timer is polled after its deadline a task comes to that, and once it is done
the loop that resends initiations stops at its next iteration. -/
theorem handshake_given_up {info : WgInfo} {secret : U8Array 32} {mtu : BitVec 32} {now : Instant}
    {labels : List Label} (run : Run (Step c) (start info secret mtu now) labels s) (ref : PeerRef) :
    ((s.wg.peers ref).handshakeResendScope.isSome = true →
      (s.wg.peers ref).stopHandshake.activated = true ∨ s.Pending (.dropScope ref)) ∧
    (∀ l next, Step c s l next → l.event = .start (.timer ref .stopHandshake) →
      (s.wg.peers ref).handshakeResendScope.isSome = true → (s.wg.peers ref).stopHandshake.deadline ≤ l.env.now →
        next.Pending (.dropScope ref)) ∧
    (∀ l next, Step c s l next → s.running l = some (.dropScope ref) →
      (next.wg.peers ref).handshakeResendScope = none) ∧
    ∀ l next loop, Step c s l next → l.event = .start (.resend loop) → loop.peer = ref →
      (s.wg.peers ref).handshakeResendScope = none → next.wg.loops = s.wg.loops.erase loop := by
  have guarded := run_guarded run ref
  refine ⟨guarded.stops, ?_, ?_, ?_⟩
  · intro l next step polls resends late
    rcases guarded.stops resends with armed | pending
    · exact step.due polls List.mem_cons_self armed late
    · exact pending.start step polls
  · intro l next step runs
    cases step with
    | start idle enabled ok => cases runs
    | @proceed i sec rest more env wg head free ok =>
      have same : s.running ⟨i, .proceed, env⟩ = some sec := by rw [running, head]; rfl
      obtain rfl := Option.some.inj (same.symm.trans runs)
      obtain ⟨rfl, rfl⟩ := Prod.mk.inj (Except.ok.inj ok)
      simp [WgState.setPeerState]
  · intro l next loop step resends about stopped
    subst about
    cases step with
    | proceed => cases resends
    | start idle enabled ok =>
      cases resends
      obtain ⟨⟨_, _⟩, resent, ok⟩ := bind_eq_ok.mp ok
      obtain ⟨rfl, _⟩ := Prod.mk.inj (Except.ok.inj ok)
      exact resendIteration_stops resent stopped

theorem handshake_given_up_queueing :
    ∃ s, Run (Step Crypto.symbolic) (start ⟨zeros 32, 0, 0⟩ (zeros 32) 1280 0) Traffic.sampleQueueing s ∧
      (s.wg.peers 0).handshakeResendScope.isSome = true ∧
      ((s.wg.peers 0).stopHandshake.activated = true ∨ s.Pending (.dropScope 0)) := by
  have followed : (((start ⟨zeros 32, 0, 0⟩ (zeros 32) 1280 0).follow Crypto.symbolic 1 Traffic.sampleQueueing).map
      fun s => (s.wg.peers 0).handshakeResendScope.isSome) = some true := by decide +kernel
  obtain ⟨s, follows, resends⟩ := Option.map_eq_some_iff.mp followed
  obtain ⟨run, _⟩ := run_of_follow Crypto.symbolic start_within follows
  have steps := run.mono fun _ _ _ step => step.1
  exact ⟨s, steps, resends, (handshake_given_up steps 0).1 resends⟩

/-- Over every interleaving of operations, the persistent keep-alive timer of a peer is armed exactly while the
peer has an interval, except that one that has fired is armed again by the task that has come to it. -/
theorem persistent_keepalive_armed {info : WgInfo} {secret : U8Array 32} {mtu : BitVec 32} {now : Instant}
    {labels : List Label} (run : Run (Step c) (start info secret mtu now) labels s) (ref : PeerRef) :
    ((s.wg.peers ref).info.keepalive = none → (s.wg.peers ref).persistentKeepalive.activated = false) ∧
    ((s.wg.peers ref).info.keepalive ≠ none →
      (s.wg.peers ref).persistentKeepalive.activated = true ∨ s.Pending (.rearm ref)) ∧
    (∀ l next, Step c s l next → l.event = .start (.timer ref .persistentKeepalive) →
      (s.wg.peers ref).info.keepalive = none → next.tasks l.task = []) ∧
    ∀ l next i, Step c s l next → s.running l = some (.rearm ref) → (s.wg.peers ref).info.keepalive = some i →
      (next.wg.peers ref).persistentKeepalive = ⟨true, l.env.now + secs i.val.toNat⟩ := by
  have guarded := run_guarded run ref
  refine ⟨guarded.silent, guarded.speaks, ?_, ?_⟩
  · intro l next step polls unset
    cases step with
    | proceed => cases polls
    | @start i op env wg task idle enabled ok =>
      cases polls
      have off : (s.wg.peers ref).persistentKeepalive.activated = false := guarded.silent unset
      have quiet : ((s.wg.peers ref).persistentKeepalive.poll env.now).1 = false := by
        simpa [off] using TimerHandle.fires_iff (s.wg.peers ref).persistentKeepalive env.now
      have leads : task = if ((s.wg.peers ref).persistentKeepalive.poll env.now).1
          then TimerKind.persistentKeepalive.sections ref else [] := (Prod.mk.inj (Except.ok.inj ok)).2.symm
      dsimp only
      rw [Function.update_self, leads, quiet]
      rfl
  · intro l next i step runs interval
    cases step with
    | start idle enabled ok => cases runs
    | @proceed j sec rest more env wg head free ok =>
      have same : s.running ⟨j, .proceed, env⟩ = some sec := by rw [running, head]; rfl
      obtain rfl := Option.some.inj (same.symm.trans runs)
      obtain ⟨rfl, rfl⟩ := Prod.mk.inj (Except.ok.inj ok)
      simp [WgState.setPeerState, rearmPersistentKeepalive, interval, TimerHandle.adjustAndActivateSecs]

def sampleInterval : List Label :=
  [starts 0 (.config (.addPeer (zeros 32))), proceeds 0,
    starts 0 (.config (.setPeer ⟨zeros 32, none, some (.v6 ⟨1, 2, 0, 0⟩), some 25, false, ∅⟩)), proceeds 0]

theorem persistent_keepalive_armed_interval :
    ∃ s, Run (Step Crypto.symbolic) (start ⟨zeros 32, 0, 0⟩ (zeros 32) 1280 0) sampleInterval s ∧
      (s.wg.peers 0).info.keepalive ≠ none ∧
      ((s.wg.peers 0).persistentKeepalive.activated = true ∨ s.Pending (.rearm 0)) := by
  have followed : (((start ⟨zeros 32, 0, 0⟩ (zeros 32) 1280 0).follow Crypto.symbolic 1 sampleInterval).map
      fun s => decide ((s.wg.peers 0).info.keepalive = none)) = some false := by decide +kernel
  obtain ⟨s, follows, seen⟩ := Option.map_eq_some_iff.mp followed
  have interval := of_decide_eq_false seen
  obtain ⟨run, _⟩ := run_of_follow Crypto.symbolic start_within follows
  have steps := run.mono fun _ _ _ step => step.1
  exact ⟨s, steps, interval, (persistent_keepalive_armed steps 0).2.1 interval⟩

end Program

end Titun
