import Titun.LifeGuards
import Titun.References

/-! What adds up over a run: the bytes that each peer is charged with, and the keep-alives that it is sent. -/
namespace Titun

open PeerState Life Transition

variable {HS : Type} (c : Crypto HS)

namespace PeerEvent

def sent? : PeerEvent → Option Output
  | sent datagram => some datagram
  | _ => none

def received? : PeerEvent → Option Bytes
  | received datagram => some datagram
  | _ => none

end PeerEvent

def Section.datagram? : Section HS → Option Bytes
  | accept p .. | verify p .. | cookie p _ | decide p .. => some p
  | _ => none

namespace Program

/-- The peer that a step is about. -/
def about (s : Program HS) (l : Label) : Option PeerRef :=
  match l.event with
  | .start (.resend loop) => some loop.peer
  | .start _ => none
  | .proceed => (s.running l).bind Section.peer?

/-- The datagram that a step takes in for a peer. -/
def takes (s : Program HS) (l : Label) : Option Bytes := (s.running l).bind Section.datagram?

end Program

namespace Life

theorem after_counters (l : Life) (now : Instant) (e : PeerEvent) :
    (l.after now e).txBytes = l.txBytes + BitVec.ofNat 64 ((e.sent?.map Output.size).getD 0) ∧
    (l.after now e).rxBytes = l.rxBytes + BitVec.ofNat 64 ((e.received?.map List.length).getD 0) := by
  cases e with
  | polled kind fires => cases kind <;> simp [after, setTimer, PeerEvent.sent?, PeerEvent.received?]
  | intervalSet interval =>
    simp only [after]
    split_ifs <;> simp [PeerEvent.sent?, PeerEvent.received?]
  | _ => simp [after, PeerEvent.sent?, PeerEvent.received?]

theorem Passes.counters {l next : Life} (passes : l.Passes now events next) :
    next.txBytes = l.txBytes + BitVec.ofNat 64 ((events.filterMap PeerEvent.sent?).map Output.size).sum ∧
    next.rxBytes = l.rxBytes + BitVec.ofNat 64 ((events.filterMap PeerEvent.received?).map List.length).sum := by
  induction events generalizing l with
  | nil =>
    cases passes
    simp
  | cons e rest ih =>
    cases passes with
    | cons one more =>
      obtain ⟨_, rfl⟩ := one
      obtain ⟨tx, rx⟩ := ih more
      obtain ⟨sent, received⟩ := l.after_counters now e
      have all_sent : (((e :: rest).filterMap PeerEvent.sent?).map Output.size).sum =
          (e.sent?.map Output.size).getD 0 + ((rest.filterMap PeerEvent.sent?).map Output.size).sum := by
        cases one : e.sent? <;> simp [one]
      have all_received : (((e :: rest).filterMap PeerEvent.received?).map List.length).sum =
          (e.received?.map List.length).getD 0 + ((rest.filterMap PeerEvent.received?).map List.length).sum := by
        cases one : e.received? <;> simp [one]
      rw [tx, rx, all_sent, all_received, BitVec.ofNat_add, BitVec.ofNat_add, ← BitVec.add_assoc, ← BitVec.add_assoc,
        ← sent, ← received]
      exact ⟨rfl, rfl⟩

end Life

section Counted

variable {c} {s next : Program HS} {l : Program.Label} {ref : PeerRef}

theorem filterMap_sent (datagrams : List Output) : (datagrams.map PeerEvent.sent).filterMap PeerEvent.sent? = datagrams := by
  simp [List.filterMap_map, Function.comp_def, PeerEvent.sent?]

theorem filterMap_received_sent (datagrams : List Output) :
    (datagrams.map PeerEvent.sent).filterMap PeerEvent.received? = [] := by
  simp [PeerEvent.received?]

theorem Section.lifeEvents_sent (sec : Section HS) (env : Env) (wg : WgState HS) :
    (sec.lifeEvents c env wg).filterMap PeerEvent.sent? = sec.outputs c env wg := by
  cases sec with
  | accept p addr r peer =>
    simp only [lifeEvents, transmitted, Section.outputs, List.filterMap_cons, List.filterMap_append, filterMap_sent]
    split_ifs <;> simp [PeerEvent.sent?]
  | finish p addr selfId peerId hs peer =>
    simp only [lifeEvents, Section.outputs]
    split_ifs with nothing
    · simp [PeerEvent.sent?, nothing]
    · rw [List.filterMap_cons, List.filterMap_append, filterMap_sent]
      exact List.append_nil _
  | send packet peer =>
    simp only [lifeEvents, transmitted, Section.outputs]
    split_ifs with waits nothing
    · obtain ⟨addr, endpoint⟩ := Option.isSome_iff_exists.mp waits.1
      have session := Option.isNone_iff_eq_none.mp waits.2
      simp [WgState.sendOrEnqueue, getEndpoint, endpoint, session, PeerEvent.sent?]
    · simp [nothing]
    · rw [List.filterMap_append, filterMap_sent]
      exact List.append_nil _
  | keepalive peer =>
    simp only [lifeEvents, transmitted, Section.outputs, List.filterMap_append, filterMap_sent]
    split_ifs <;> simp [PeerEvent.sent?]
  | decide p addr selfId peer =>
    simp only [lifeEvents, Section.outputs, List.filterMap_cons, PeerEvent.sent?]
    split
    · rfl
    · cases (Transport.decrypt c _ p).1 <;> rfl
  | doHandshake peer =>
    simp only [lifeEvents, Section.outputs]
    split_ifs <;> rfl
  | configure command peer =>
    simp only [lifeEvents, Section.outputs]
    cases command.keepalive <;> split_ifs <;> rfl
  | _ => rfl

theorem Section.lifeEvents_received (sec : Section HS) (env : Env) (wg : WgState HS) :
    (sec.lifeEvents c env wg).filterMap PeerEvent.received? = sec.datagram?.toList := by
  cases sec with
  | accept p addr r peer =>
    simp only [lifeEvents, transmitted, List.filterMap_cons, List.filterMap_append, filterMap_received_sent]
    split_ifs <;> rfl
  | finish p addr selfId peerId hs peer =>
    simp only [lifeEvents]
    split_ifs with nothing
    · rfl
    · rw [List.filterMap_cons, List.filterMap_append, filterMap_received_sent]
      rfl
  | send packet peer =>
    simp only [lifeEvents, transmitted]
    split_ifs
    · rfl
    · rw [List.filterMap_append, filterMap_received_sent]
      rfl
    · rw [List.filterMap_append, filterMap_received_sent]
      rfl
  | keepalive peer =>
    simp only [lifeEvents, transmitted, List.filterMap_append, filterMap_received_sent]
    split_ifs <;> rfl
  | decide p addr selfId peer =>
    simp only [lifeEvents, List.filterMap_cons, PeerEvent.received?]
    split
    · rfl
    · cases (Transport.decrypt c _ p).1 <;> rfl
  | doHandshake peer =>
    simp only [lifeEvents]
    split_ifs <;> rfl
  | configure command peer =>
    simp only [lifeEvents]
    cases command.keepalive <;> split_ifs <;> rfl
  | _ => rfl

theorem Program.lifeEvents_sent (s : Program HS) (l : Program.Label) (ref : PeerRef) :
    (s.lifeEvents c l ref).filterMap PeerEvent.sent? = if s.about l = some ref then s.outputs c l else [] := by
  obtain ⟨i, event, env⟩ := l
  cases event with
  | start op =>
    cases op with
    | timer peer kind =>
      simp only [lifeEvents, Op.lifeEvents]
      split_ifs <;> rfl
    | resend loop =>
      simp only [lifeEvents, Op.lifeEvents, about, Option.some.injEq, Program.outputs, Op.outputs]
      split_ifs
      · exact filterMap_sent _
      · rfl
    | _ => rfl
  | proceed =>
    rcases Option.eq_none_or_eq_some (s.running ⟨i, .proceed, env⟩) with idle | ⟨sec, runs⟩
    · simp only [lifeEvents, about, Program.outputs, idle]
      rfl
    · simp only [lifeEvents, about, Program.outputs, runs, Option.bind_some, Option.map_some, Option.getD_some]
      split_ifs
      · exact sec.lifeEvents_sent env s.wg
      · rfl

theorem Program.lifeEvents_received (s : Program HS) (l : Program.Label) (ref : PeerRef) :
    (s.lifeEvents c l ref).filterMap PeerEvent.received? = if s.about l = some ref then (s.takes l).toList else [] := by
  obtain ⟨i, event, env⟩ := l
  cases event with
  | start op =>
    have nothing : s.takes ⟨i, .start op, env⟩ = none := rfl
    rw [nothing, Option.toList_none, ite_self]
    cases op with
    | timer peer kind =>
      simp only [lifeEvents, Op.lifeEvents]
      split_ifs <;> rfl
    | resend loop =>
      simp only [lifeEvents, Op.lifeEvents]
      split_ifs
      · exact filterMap_received_sent _
      · rfl
    | _ => rfl
  | proceed =>
    rcases Option.eq_none_or_eq_some (s.running ⟨i, .proceed, env⟩) with idle | ⟨sec, runs⟩
    · simp only [lifeEvents, about, takes, idle]
      rfl
    · simp only [lifeEvents, about, takes, runs, Option.bind_some]
      split_ifs
      · exact sec.lifeEvents_received env s.wg
      · rfl

end Counted

/-- The program, and what was sent to and received from each peer since it was made. -/
structure Metered (HS : Type) where
  program : Program HS
  sent : PeerRef → List Output
  received : PeerRef → List Bytes

namespace Metered

def start (info : WgInfo) (cookieSecret : U8Array 32) (mtu : BitVec 32) (now : Instant) : Metered HS :=
  ⟨.start info cookieSecret mtu now, fun _ => [], fun _ => []⟩

/-- A step, with what it sends and what it takes in. -/
structure Step (s : Metered HS) (l : Program.Label) (next : Metered HS) : Prop where
  step : Program.Step c s.program l next.program
  made : ∀ ref, s.program.Adds l ref → next.sent ref = [] ∧ next.received ref = []
  sent : ∀ ref, ¬ s.program.Adds l ref →
    next.sent ref = s.sent ref ++ if s.program.about l = some ref then s.program.outputs c l else []
  received : ∀ ref, ¬ s.program.Adds l ref →
    next.received ref = s.received ref ++ if s.program.about l = some ref then (s.program.takes l).toList else []

structure Exact (s : Metered HS) (ref : PeerRef) : Prop where
  txBytes : (s.program.wg.peers ref).txBytes = BitVec.ofNat 64 ((s.sent ref).map Output.size).sum
  rxBytes : (s.program.wg.peers ref).rxBytes = BitVec.ofNat 64 ((s.received ref).map List.length).sum

variable {c} {s next : Metered HS} {l : Program.Label} {ref : PeerRef}

theorem Step.exact (step : s.Step c l next) (exact_ : s.Exact ref) : next.Exact ref := by
  by_cases adds : s.program.Adds l ref
  · obtain ⟨sent, received⟩ := step.made ref adds
    have born := step.step.born adds
    constructor
    · rw [sent]
      exact congrArg Life.txBytes born
    · rw [received]
      exact congrArg Life.rxBytes born
  · obtain ⟨tx, rx⟩ := (step.step.passes adds).counters
    rw [Program.lifeEvents_sent] at tx
    rw [Program.lifeEvents_received] at rx
    constructor
    · rw [step.sent ref adds, List.map_append, List.sum_append, BitVec.ofNat_add, ← exact_.txBytes]
      exact tx
    · rw [step.received ref adds, List.map_append, List.sum_append, BitVec.ofNat_add, ← exact_.rxBytes]
      exact rx

/-- Over every interleaving of operations, the counters of each peer are the sizes of the datagrams that were sent
to it, and of those that a handler found it for, since it was made. -/
theorem counters_exact {info : WgInfo} {secret : U8Array 32} {mtu : BitVec 32} {now : Instant}
    {labels : List Program.Label} (run : Run (Step c) (start info secret mtu now) labels s) (ref : PeerRef) :
    (s.program.wg.peers ref).txBytes = BitVec.ofNat 64 ((s.sent ref).map Output.size).sum ∧
    (s.program.wg.peers ref).rxBytes = BitVec.ofNat 64 ((s.received ref).map List.length).sum := by
  obtain ⟨tx, rx⟩ := run.invariant (fun s => s.Exact ref) (fun _ _ _ exact_ step => step.exact exact_) ⟨rfl, rfl⟩
  exact ⟨tx, rx⟩

theorem run_of_program {s last : Program HS} (run : Run (Program.Step c) s labels last)
    (sent : PeerRef → List Output) (received : PeerRef → List Bytes) :
    ∃ sent' received', Run (Step c) ⟨s, sent, received⟩ labels ⟨last, sent', received'⟩ := by
  classical
  induction run generalizing sent received with
  | nil => exact ⟨sent, received, .nil⟩
  | @cons s l next labels last one _ ih =>
    obtain ⟨sent', received', rest⟩ :=
      ih (fun ref => if s.Adds l ref then [] else sent ref ++ if s.about l = some ref then s.outputs c l else [])
        fun ref => if s.Adds l ref then [] else received ref ++ if s.about l = some ref then (s.takes l).toList else []
    exact ⟨sent', received', .cons ⟨one, fun ref adds => ⟨if_pos adds, if_pos adds⟩, fun ref old => if_neg old,
      fun ref old => if_neg old⟩ rest⟩

theorem counters_exact_session :
    ∃ s, Run (Step Crypto.symbolic) (start ⟨zeros 32, 0, 0⟩ (zeros 32) 1280 0) Traffic.sampleSession s ∧
      BitVec.ofNat 64 ((s.sent 0).map Output.size).sum = 200 ∧
      BitVec.ofNat 64 ((s.received 0).map List.length).sum = 92 := by
  have followed : (((Program.start ⟨zeros 32, 0, 0⟩ (zeros 32) 1280 0).follow Crypto.symbolic 1
      Traffic.sampleSession).map fun s => ((s.wg.peers 0).txBytes, (s.wg.peers 0).rxBytes)) = some (200, 92) := by
    decide +kernel
  obtain ⟨program, follows, seen⟩ := Option.map_eq_some_iff.mp followed
  obtain ⟨tx, rx⟩ := Prod.mk.inj seen
  obtain ⟨run, _⟩ := Program.run_of_follow Crypto.symbolic Program.start_within follows
  obtain ⟨sent, received, metered⟩ := run_of_program (run.mono fun _ _ _ step => step.1) (fun _ => []) fun _ => []
  obtain ⟨exact_sent, exact_received⟩ := counters_exact metered 0
  exact ⟨⟨program, sent, received⟩, metered, exact_sent.symm.trans tx, exact_received.symm.trans rx⟩

end Metered

theorem countP_concat {α : Type} (p : α → Bool) (past : List α) (last : α) :
    (past ++ [last]).countP p = past.countP p + (p last).toNat := by
  rw [List.countP_append, List.countP_singleton]
  cases p last <;> rfl

def keepaliveSent (o : Instant × PeerEvent) : Bool := o.2 = .sendKeepalive

/-- Something was received that a keep-alive would acknowledge, or a handshake that it would confirm. -/
def prompts (o : Instant × PeerEvent) : Bool := o.2 = .recv false ∨ o.2 = .unconfirmed

def firing (kind : TimerKind) (o : Instant × PeerEvent) : Bool := o.2 = .polled kind true

namespace Life

theorem keepalive_poll {l : Life} {kind : TimerKind} (allowed : l.Allows now (.polled kind fires)) :
    (firing .keepalive (now, .polled kind fires)).toNat +
      (l.after now (.polled kind fires)).keepalive.activated.toNat ≤ l.keepalive.activated.toNat := by
  cases kind with
  | keepalive =>
    simp only [Allows, timer] at allowed
    simp only [firing, after, setTimer, timer]
    unfold TimerHandle.poll at allowed ⊢
    split_ifs at allowed ⊢
    · simp [← allowed]
    · cases activated : l.keepalive.activated <;> simp [← allowed, activated]
  | _ => simp [firing, after, setTimer]

/-- A fire disarms the timer, and only a prompt arms it. -/
theorem keepalive_step {l : Life} (allowed : l.Allows now e) :
    (firing .keepalive (now, e)).toNat + (l.after now e).keepalive.activated.toNat ≤
      l.keepalive.activated.toNat + (prompts (now, e)).toNat := by
  cases e with
  | polled kind fires => exact (keepalive_poll allowed).trans (Nat.le_add_right _ _)
  | recv isKeepalive =>
    cases isKeepalive with
    | true => simp [firing, prompts, after]
    | false => simpa [firing, prompts, after] using le_add_left (Bool.toNat_le _)
  | unconfirmed => simpa [firing, prompts, after] using le_add_left (Bool.toNat_le _)
  | intervalSet interval =>
    simp only [after]
    split_ifs <;> simp [firing]
  | _ => simp [firing, after, TimerHandle.deActivate]

/-- The keepalive timer fires at most once for each thing that prompts it. -/
theorem keepalive_prompted {l : Life} (run : Run Step (.new birth) history l) :
    history.countP (firing .keepalive) + l.keepalive.activated.toNat ≤ history.countP prompts := by
  have initial : ([] : List (Instant × PeerEvent)).countP (firing .keepalive) +
      (new birth).keepalive.activated.toNat ≤ ([] : List (Instant × PeerEvent)).countP prompts := le_rfl
  refine run.history (fun past l => past.countP (firing .keepalive) + l.keepalive.activated.toNat ≤ past.countP prompts)
    ?_ initial
  rintro past l ⟨now, e⟩ next bound ⟨allowed, rfl⟩
  have step := keepalive_step allowed
  dsimp only at step ⊢
  rw [countP_concat, countP_concat]
  omega

/-- The persistent timer is off, and no interval is set. -/
def Silent (l : Life) : Prop := l.interval = none ∧ l.persistentKeepalive.activated = false

theorem Silent.step {l : Life} (silent : l.Silent) (allowed : l.Allows now e)
    (zero : ∀ interval, e = .intervalSet interval → interval = 0) :
    (l.after now e).Silent ∧ firing .persistentKeepalive (now, e) = false := by
  obtain ⟨unset, off⟩ := silent
  have rearmed : (l.rearm now).activated = false := by rw [rearm, unset, off]
  cases e with
  | polled kind fires =>
    cases kind with
    | persistentKeepalive =>
      have quiet : (l.persistentKeepalive.poll now).1 = false := by
        simpa [off] using TimerHandle.fires_iff l.persistentKeepalive now
      obtain rfl := quiet.symm.trans allowed
      exact ⟨⟨unset, TimerHandle.poll_off off now⟩, by simp [firing]⟩
    | _ => exact ⟨⟨unset, off⟩, by simp [firing]⟩
  | intervalSet interval =>
    obtain rfl := zero interval rfl
    have same : NonZeroU16.new 0 = l.interval := by rw [unset]; rfl
    rw [after, same, if_neg (not_not.mpr rfl)]
    exact ⟨⟨unset, off⟩, by simp [firing]⟩
  | sendTransport | sendKeepalive | rearmed => exact ⟨⟨unset, rearmed⟩, by simp [firing]⟩
  | _ => exact ⟨⟨unset, off⟩, by simp [firing]⟩

theorem persistent_unset {l : Life} (run : Run Step (.new birth) history l)
    (unset : ∀ o ∈ history, ∀ interval, o.2 = .intervalSet interval → interval = 0) :
    history.countP (firing .persistentKeepalive) = 0 := by
  have stays : ∀ l history next, Silent l → (∀ o ∈ history, ∀ interval, o.2 = .intervalSet interval → interval = 0) →
      Run Step l history next → history.countP (firing .persistentKeepalive) = 0 := by
    intro l history next silent unset run
    induction run with
    | nil => rfl
    | @cons l o next rest last one _ ih =>
      obtain ⟨now, e⟩ := o
      obtain ⟨allowed, rfl⟩ := one
      obtain ⟨still, quiet⟩ := silent.step allowed (unset (now, e) List.mem_cons_self)
      rw [List.countP_cons_of_neg (by simp [quiet])]
      exact ih still fun o member => unset o (List.mem_cons_of_mem _ member)
  exact stays _ _ _ ⟨rfl, rfl⟩ unset run

end Life

namespace Section

/-- The section sends the peer a keep-alive. -/
def speaksTo (ref : PeerRef) : Section HS → Bool
  | keepalive peer => peer = ref
  | _ => false

variable {c} {wg next : WgState HS} {sec : Section HS} {ref : PeerRef}

theorem keepalives_sent (about : sec.peer? = some ref) (env : Env) (wg : WgState HS) :
    (sec.lifeEvents c env wg).countP (· = .sendKeepalive) ≤ (sec.speaksTo ref).toNat := by
  have silent (datagrams : List Output) : (datagrams.map PeerEvent.sent).countP (· = .sendKeepalive) = 0 := by
    simp [List.countP_map]
  cases sec with
  | keepalive peer =>
    obtain rfl := Option.some.inj about
    simp only [lifeEvents, transmitted, List.countP_append, silent, speaksTo]
    split_ifs <;> simp
  | decide p addr selfId peer =>
    simp only [lifeEvents]
    split
    · simp
    · cases (Transport.decrypt c _ p).1 <;> simp
  | configure command peer =>
    simp only [lifeEvents]
    cases command.keepalive <;> split_ifs <;> simp
  | accept | finish | send | doHandshake =>
    simp only [lifeEvents, transmitted]
    split_ifs <;> simp [List.countP_append, silent]
  | _ => simp [lifeEvents]

theorem run_silent (ok : sec.run c env wg = .ok (next, more)) (ref : PeerRef) : more.countP (speaksTo ref) = 0 := by
  have does := run_does c ok
  apply List.countP_eq_zero.mpr
  intro later member
  cases sec with
  | verify p addr selfId peer =>
    rcases does.2 with rfl | ⟨_, _, _, _, _, _, rfl⟩
    · cases member
    · rcases List.mem_pair.mp member with rfl | rfl <;> simp [speaksTo]
  | decide p addr selfId peer =>
    rcases does.2 later member with rfl | ⟨rfl, _⟩ <;> simp [speaksTo]
  | send packet peer | keepalive peer =>
    obtain rfl := does.2 later member
    simp [speaksTo]
  | unlist publicKey =>
    rcases does with ⟨rfl, _⟩ | ⟨_, _, rfl, _⟩
    · cases member
    · obtain rfl := List.mem_singleton.mp member
      simp [speaksTo]
  | _ =>
    obtain ⟨rfl, _⟩ := does
    cases member

end Section

def PeerEvent.speaks : PeerEvent → Bool
  | polled .keepalive fires | polled .persistentKeepalive fires => fires
  | _ => false

theorem Op.begin_speaks {c : Crypto HS} {op : Op} {wg next : WgState HS} (ok : op.begin c env wg = .ok (next, task))
    (ref : PeerRef) :
    task.countP (Section.speaksTo ref) ≤ (op.lifeEvents c env wg ref).countP PeerEvent.speaks := by
  have does := begin_does c ok
  have none {task : List (Section HS)} (others : ∀ sec ∈ task, ¬ sec.speaksTo ref = true) (n : Nat) :
      task.countP (Section.speaksTo ref) ≤ n := (List.countP_eq_zero.mpr others).le.trans (Nat.zero_le n)
  cases op with
  | timer peer kind =>
    have leads : task = if (((wg.peers peer).timer kind).poll env.now).1 then kind.sections peer else [] :=
      (Prod.mk.inj (Except.ok.inj ok)).2.symm
    rw [leads, lifeEvents]
    cases (((wg.peers peer).timer kind).poll env.now).1 with
    | false => exact Nat.zero_le _
    | true =>
      by_cases about : peer = ref
      · subst about
        cases kind <;> simp [TimerKind.sections, Section.speaksTo, PeerEvent.speaks]
      · cases kind <;> simp [TimerKind.sections, Section.speaksTo, about]
  | config op =>
    apply none
    intro sec member
    cases op with
    | addPeer publicKey | removePeer publicKey =>
      obtain ⟨_, rfl⟩ := does
      cases List.mem_singleton.mp member
      simp [Section.speaksTo]
    | setPeer command =>
      rcases does.2 with rfl | ⟨_, _, rfl⟩
      · cases member
      · cases List.mem_singleton.mp member
        simp [Section.speaksTo]
    | removeAllPeers order =>
      obtain ⟨_, rfl⟩ := does
      obtain ⟨_, _, rfl⟩ := List.mem_map.mp member
      simp [Section.speaksTo]
  | setKey order key =>
    obtain ⟨_, rfl⟩ := does
    apply none
    intro sec member
    rcases List.mem_append.mp member with clears | stores
    · obtain ⟨_, _, rfl⟩ := List.mem_map.mp clears
      simp [Section.speaksTo]
    · cases List.mem_singleton.mp stores
      simp [Section.speaksTo]
  | datagram bytes addr =>
    apply none
    intro sec member
    cases does.2 with
    | nothing => cases member
    | accept | verify | cookie | decide =>
      cases List.mem_singleton.mp member
      simp [Section.speaksTo]
  | packet padded =>
    apply none
    intro sec member
    rcases does.2 with rfl | ⟨_, _, _, _, rfl⟩
    · cases member
    · cases List.mem_singleton.mp member
      simp [Section.speaksTo]
  | _ =>
    obtain ⟨rfl, _⟩ := does
    exact Nat.zero_le _

namespace Program

variable {c} {s next : Program HS} {l : Label} {ref : PeerRef}

/-- How often the tasks come to send the peer a keep-alive. -/
def owed (s : Program HS) (ref : PeerRef) (tasks : Finset Nat) : Nat :=
  ∑ i ∈ tasks, (s.tasks i).countP (Section.speaksTo ref)

/-- Whatever keep-alive is sent or comes to be sent was owed, or a timer fires for it. -/
theorem Step.owed (step : Step c s l next) (ref : PeerRef) {tasks : Finset Nat} (inside : l.task ∈ tasks) :
    next.owed ref tasks + (s.lifeEvents c l ref).countP (· = .sendKeepalive) ≤
      s.owed ref tasks + (s.lifeEvents c l ref).countP PeerEvent.speaks := by
  have others : ∑ i ∈ tasks.erase l.task, (next.tasks i).countP (Section.speaksTo ref) =
      ∑ i ∈ tasks.erase l.task, (s.tasks i).countP (Section.speaksTo ref) :=
    Finset.sum_congr rfl fun i member => by rw [step.idle (Finset.ne_of_mem_erase member)]
  unfold Program.owed
  rw [← Finset.add_sum_erase tasks _ inside, ← Finset.add_sum_erase tasks _ inside, others]
  suffices here : (next.tasks l.task).countP (Section.speaksTo ref) +
      (s.lifeEvents c l ref).countP (· = .sendKeepalive) ≤
      (s.tasks l.task).countP (Section.speaksTo ref) + (s.lifeEvents c l ref).countP PeerEvent.speaks by omega
  cases step with
  | @start i op env wg task idle enabled ok =>
    have spoken := Op.begin_speaks ok ref
    have unsaid : (op.lifeEvents c env s.wg ref).countP (· = .sendKeepalive) = 0 := by
      cases op with
      | timer peer kind =>
        simp only [Op.lifeEvents]
        split_ifs <;> simp
      | resend loop =>
        simp only [Op.lifeEvents]
        split_ifs <;> simp [List.countP_map]
      | _ => rfl
    dsimp only
    rw [Function.update_self, idle, lifeEvents]
    dsimp only
    rw [unsaid]
    simpa using spoken
  | @proceed i sec rest more env wg head free ok =>
    have runs : s.running ⟨i, .proceed, env⟩ = some sec := by rw [running, head]; rfl
    have silent := Section.run_silent ok ref
    dsimp only
    rw [Function.update_self, head, List.countP_append, silent, Nat.zero_add]
    simp only [lifeEvents, runs]
    split_ifs with about
    · have sent := Section.keepalives_sent (c := c) about env s.wg
      have said : (sec :: rest).countP (Section.speaksTo ref) =
          (sec.speaksTo ref).toNat + rest.countP (Section.speaksTo ref) := by
        rw [List.countP_cons, Nat.add_comm]
        cases sec.speaksTo ref <;> rfl
      omega
    · simp [List.countP_cons]

end Program

theorem Program.Step.owes_nothing {c : Crypto HS} {s next : Program HS} {l : Program.Label} {ref : PeerRef}
    (step : Program.Step c s l next) (sound : s.Sound) (adds : s.Adds l ref) (tasks : Finset Nat) :
    next.owed ref tasks = 0 := by
  have unsaid (i : Nat) (sec : Section HS) (member : sec ∈ s.tasks i) : ¬ sec.speaksTo ref = true := by
    obtain ⟨added, _, adds⟩ := adds
    cases added with
    | addPeer publicKey =>
      obtain ⟨rfl, _⟩ := adds
      intro speaks
      cases sec with
      | keepalive peer =>
        have known := (sound.tasks i _ member).1 peer rfl
        simp only [Section.speaksTo, decide_eq_true_eq] at speaks
        exact known.ne speaks
      | _ => cases speaks
    | _ => exact adds.elim
  apply Finset.sum_eq_zero
  intro i _
  apply List.countP_eq_zero.mpr
  intro sec member
  by_cases here : i = l.task
  swap
  · exact unsaid i sec (by rwa [← step.idle here])
  obtain ⟨added, runs, adds⟩ := adds
  cases step with
  | start idle enabled ok => cases runs
  | @proceed j sec' rest more env wg head free ok =>
    have same : s.running ⟨j, .proceed, env⟩ = some sec' := by rw [running, head]; rfl
    obtain rfl := Option.some.inj (same.symm.trans runs)
    obtain rfl := here
    dsimp only at member
    rw [Function.update_self] at member
    rcases List.mem_append.mp member with new | old
    · cases sec' with
      | addPeer publicKey =>
        obtain ⟨_, rfl⟩ := Prod.mk.inj (Except.ok.inj ok)
        cases new
      | _ => exact adds.elim
    · exact unsaid i sec (by rw [head]; exact List.mem_cons_of_mem _ old)

theorem speaks_iff (history : List (Instant × PeerEvent)) : history.countP (fun o => o.2.speaks) =
    history.countP (firing .keepalive) + history.countP (firing .persistentKeepalive) := by
  induction history with
  | nil => rfl
  | cons o rest ih =>
    obtain ⟨now, e⟩ := o
    rw [List.countP_cons, List.countP_cons, List.countP_cons, ih]
    cases e with
    | polled kind fires => cases kind <;> cases fires <;> simp [PeerEvent.speaks, firing] <;> omega
    | _ => simp [PeerEvent.speaks, firing]

namespace Lived

variable {c} {s next : Lived HS} {l : Program.Label} {ref : PeerRef}

/-- What was sent and what is owed is no more than what the timers fired for. -/
def Affords (s : Lived HS) (ref : PeerRef) : Prop :=
  ∀ tasks, s.program.owed ref tasks + (s.history ref).countP keepaliveSent ≤
    (s.history ref).countP fun o => o.2.speaks

theorem Step.affords (step : s.Step c l next) (sound : s.program.Sound) (affords : s.Affords ref) : next.Affords ref := by
  intro tasks
  by_cases adds : s.program.Adds l ref
  · rw [step.made ref adds, step.step.owes_nothing sound adds]
    rfl
  · rw [step.later ref adds]
    have before := affords (insert l.task tasks)
    have now := step.step.owed ref (Finset.mem_insert_self l.task tasks)
    have less : next.program.owed ref tasks ≤ next.program.owed ref (insert l.task tasks) :=
      Finset.sum_le_sum_of_subset (Finset.subset_insert _ _)
    have sent : ((s.program.lifeEvents c l ref).map fun e => (l.env.now, e)).countP keepaliveSent =
        (s.program.lifeEvents c l ref).countP (· = .sendKeepalive) := List.countP_map ..
    have fired : ((s.program.lifeEvents c l ref).map fun e => (l.env.now, e)).countP (fun o => o.2.speaks) =
        (s.program.lifeEvents c l ref).countP PeerEvent.speaks := List.countP_map ..
    rw [List.countP_append, List.countP_append, sent, fired]
    omega

/-- Over every interleaving of operations, a peer is sent no more keep-alives than it has sent messages that are not
keep-alives, the handshakes with it that this side has started, and the times that the persistent timer fired, which
does not happen without an interval. -/
theorem keepalives_bounded {info : WgInfo} {secret : U8Array 32} {mtu : BitVec 32} {now : Instant}
    {labels : List Program.Label} (run : Run (Step c) (start info secret mtu now) labels s) (ref : PeerRef) :
    (s.history ref).countP keepaliveSent ≤
      (s.history ref).countP prompts + (s.history ref).countP (firing .persistentKeepalive) ∧
    ((∀ o ∈ s.history ref, ∀ interval, o.2 = .intervalSet interval → interval = 0) →
      (s.history ref).countP keepaliveSent ≤ (s.history ref).countP prompts) := by
  have affords : s.program.Sound ∧ s.Affords ref := by
    refine run.invariant (fun s => s.program.Sound ∧ s.Affords ref) ?_ ⟨Program.start_sound info secret mtu now, ?_⟩
    · intro s l next kept step
      exact ⟨(Program.Step.sound c kept.1 step.step).1, step.affords kept.1 kept.2⟩
    · intro tasks
      simp [start, Program.owed, Program.start]
  obtain ⟨birth, lived⟩ := run_follows run ref
  have fired := keepalive_prompted lived
  have bound := affords.2 ∅
  rw [speaks_iff] at bound
  constructor
  · omega
  · intro unset
    have never := persistent_unset lived unset
    omega

def sampleAcknowledged : List Program.Label :=
  Traffic.sampleSession ++ [Program.starts 0 (.datagram ([4, 0, 0, 0] ++ List.replicate 44 0) ⟨0, 0, 0, 0⟩),
    Program.proceeds 0, ⟨0, .start (.timer 0 .keepalive), { sampleEnv with now := secs 10 }⟩, Program.proceeds 0]

theorem keepalives_bounded_acknowledged :
    ∃ s, Run (Step Crypto.symbolic) (start ⟨zeros 32, 0, 0⟩ (zeros 32) 1280 0) sampleAcknowledged s ∧
      (s.program.wg.peers 0).txBytes = 232 ∧
      (s.history 0).countP keepaliveSent ≤
        (s.history 0).countP prompts + (s.history 0).countP (firing .persistentKeepalive) := by
  have followed : (((Program.start ⟨zeros 32, 0, 0⟩ (zeros 32) 1280 0).follow Crypto.symbolic 1
      sampleAcknowledged).map fun s => (s.wg.peers 0).txBytes) = some 232 := by decide +kernel
  obtain ⟨program, follows, seen⟩ := Option.map_eq_some_iff.mp followed
  obtain ⟨run, _⟩ := Program.run_of_follow Crypto.symbolic Program.start_within follows
  obtain ⟨history, lived⟩ := run_of_program (run.mono fun _ _ _ step => step.1) fun _ => []
  exact ⟨⟨program, history⟩, lived, seen, (keepalives_bounded lived 0).1⟩

end Lived

end Titun
