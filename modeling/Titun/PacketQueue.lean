import Titun.IdMap
import Titun.Noise
import Titun.QueueEffects

/-! The queues of the peers over runs: whether packets stay behind, and in which order they leave. -/
namespace Titun

open BoundedQueue PeerState Transition

variable {HS : Type} (c : Crypto HS)

/-- A message carries a packet, sealed by the session that it is sent on. -/
def Carries (packet : Bytes) (message : Transport × Output) : Prop :=
  ∃ ctr addr, message.2 = .sendTo (message.1.sealed c ctr packet) addr

namespace Section

/-- The TUN packets that a section hands to a peer. -/
def arrivals (ref : PeerRef) : Section HS → List Bytes
  | send packet peer => if peer = ref then [packet] else []
  | _ => []

/-- The messages in which a section sends TUN packets to a peer, with their sessions. -/
def departures (env : Env) (wg : WgState HS) (ref : PeerRef) : Section HS → List (Transport × Output)
  | send packet peer =>
    if peer = ref then
      match (wg.peers ref).findTransportToSend with
      | none => []
      | some t => (wg.sendOrEnqueue c env ref packet).1.2.map (t, ·)
    else []
  | finish _ addr _ peerId hs peer =>
    if peer = ref then
      match (wg.peers ref).handshake, wg.finishSession c env addr peerId hs ref with
      | some h, .ok (_, outputs) => outputs.map (Transport.newFromHs c env.now h.selfId peerId hs, ·)
      | _, _ => []
    else []
  | _ => []

/-- A section gives up what a peer has queued. -/
def Discards (wg : WgState HS) (ref : PeerRef) : Section HS → Prop
  | clear peer | detach peer => peer = ref
  | configure command peer => peer = ref ∧ (wg.peers ref).info.psk ≠ command.presharedKey
  | addPeer _ => wg.nextPeer = ref
  | _ => False

/-- A transport message is accepted on a session of a peer. -/
def Confirms (wg : WgState HS) (ref : PeerRef) : Section HS → Prop
  | decide p _ selfId peer => peer = ref ∧ ∃ t, (wg.peers ref).findTransportById selfId = some t ∧
      (t.decrypt c p).1.isSome = true
  | _ => False

def AsResponder : Section HS → Prop
  | accept _ _ r _ => c.getIsInitiator r.handshakeState = false
  | _ => True

/-- What a section does to the queue of a peer. -/
structure Treats (env : Env) (wg next : WgState HS) (ref : PeerRef) (sec : Section HS) : Prop where
  moves : Moves QUEUE_SIZE (Titun.Carries c) (sec.Discards wg ref) (wg.peers ref).queue (sec.arrivals ref)
    (sec.departures c env wg ref) (next.peers ref).queue
  steady : (sec.Confirms c wg ref → (wg.peers ref).queue = []) → (next.peers ref).Steady

variable {c} {wg next : WgState HS} {sec : Section HS} {ref : PeerRef}

theorem Treats.of_holds (steady : (wg.peers ref).Steady) (holds : (wg.peers ref).Holds (next.peers ref))
    (arrives : sec.arrivals ref = []) (departs : sec.departures c env wg ref = []) :
    sec.Treats c env wg next ref := by
  refine ⟨?_, fun _ => steady.holds holds⟩
  rw [arrives, departs, holds.queue]
  exact .keep

theorem Treats.of_empties (steady : (wg.peers ref).Steady) (empties : WgState.Empties peer wg next)
    (discards : peer = ref → sec.Discards wg ref)
    (arrives : sec.arrivals ref = []) (departs : sec.departures c env wg ref = []) :
    sec.Treats c env wg next ref := by
  by_cases here : ref = peer
  · subst here
    refine ⟨?_, fun _ => .of_empty empties.1⟩
    rw [arrives, departs, empties.1]
    exact .discard (discards rfl)
  · exact .of_holds steady (empties.2 ref here) arrives departs

theorem send_treats (steady : (wg.peers ref).Steady) (env : Env) (packet : Bytes) (peer : PeerRef) :
    (send packet peer).Treats c env wg (wg.sendOrEnqueue c env peer packet).2 ref := by
  have does := WgState.sendOrEnqueue_queues c wg env peer packet
  by_cases here : peer = ref
  swap
  · refine .of_holds steady ?_ (if_neg here) (if_neg here)
    obtain ⟨_, sent⟩ | ⟨_, _, holds, _⟩ | ⟨_, _, _, queued⟩ := does
    · rw [sent]
      exact .refl _
    · exact holds ref
    · rw [queued, Function.update_of_ne (Ne.symm here)]
      exact .refl _
  subst here
  have arrives : (send packet peer : Section HS).arrivals peer = [packet] := if_pos rfl
  have departs : (send packet peer).departures c env wg peer =
      match (wg.peers peer).findTransportToSend with
      | none => []
      | some t => (wg.sendOrEnqueue c env peer packet).1.2.map (t, ·) := if_pos rfl
  obtain ⟨unknown, sent⟩ | ⟨t, session, holds, sent⟩ | ⟨known, session, sent, queued⟩ := does
  · have empty : (wg.peers peer).queue = [] := by
      by_contra waits
      simpa [unknown] using steady.addressed waits
    refine ⟨?_, fun _ => by rwa [sent]⟩
    rw [arrives, departs, sent, empty]
    cases (wg.peers peer).findTransportToSend <;> exact .drop
  · have empty : (wg.peers peer).queue = [] := steady.flushed (by rw [Usable, session]; rfl)
    refine ⟨?_, fun _ => steady.holds (holds peer)⟩
    rw [arrives, departs, session, (holds peer).queue, empty]
    rcases sent with sent | ⟨ctr, addr, sent⟩
    · rw [sent]
      exact .drop
    · rw [sent]
      exact .pass ⟨ctr, addr, rfl⟩
  · refine ⟨?_, fun _ => ⟨fun usable => ?_, fun _ => ?_⟩⟩
    · rw [arrives, departs, session, queued, Function.update_self]
      exact .enqueue
    · rw [queued, Function.update_self] at usable
      have same : (wg.peers peer).Usable := usable
      rw [Usable, session] at same
      cases same
    · rw [queued, Function.update_self]
      exact known

theorem finish_treats (steady : (wg.peers ref).Steady)
    (ok : (finish p addr selfId peerId hs peer).run c env wg = .ok (next, more)) :
    (finish p addr selfId peerId hs peer).Treats c env wg next ref := by
  obtain ⟨⟨_, outputs⟩, finished, ok⟩ := bind_eq_ok.mp ok
  obtain ⟨rfl, rfl⟩ := Prod.mk.inj (Except.ok.inj ok)
  obtain ⟨empties, h, pending, flushed⟩ := WgState.finishSession_flushes c finished
  by_cases here : peer = ref
  swap
  · exact .of_holds steady (empties.2 ref (Ne.symm here)) rfl (if_neg here)
  subst here
  have departs : (finish p addr selfId peerId hs peer).departures c env wg peer =
      outputs.map (Transport.newFromHs c env.now h.selfId peerId hs, ·) := by
    simp only [departures, if_true, pending, finished]
  refine ⟨?_, fun _ => .of_empty empties.1⟩
  rw [departs, empties.1]
  refine .flush (List.forall₂_map_right_iff.mpr (flushed.imp ?_))
  rintro packet output ⟨ctr, rfl⟩
  exact ⟨ctr, addr, rfl⟩

theorem decide_treats (steady : (wg.peers ref).Steady) (env : Env) (p : Bytes) (addr : SocketAddrV6)
    (selfId : WgId) (peer : PeerRef) :
    (decide p addr selfId peer).Treats c env wg (wg.decideTransport c env p addr selfId peer).2 ref := by
  rcases WgState.decideTransport_cases c wg env p addr selfId peer with
    ⟨t, h, plain, session, opens, _, decided⟩ | ⟨_, decided⟩
  · rw [decided]
    by_cases here : peer = ref
    · subst here
      have queue : ((wg.setPeerState peer (WgState.received (wg.peers peer) env p.length selfId
          (t.accept (Transport.counterOf p)) plain)).peers peer).queue = (wg.peers peer).queue := by
        rw [WgState.setPeerState]
        dsimp only
        rw [Function.update_self]
        rfl
      refine ⟨?_, fun confirmed => .of_empty ?_⟩
      · rw [queue]
        exact .keep
      · exact queue.trans (confirmed ⟨rfl, t, session, by rw [opens]; rfl⟩)
    · refine .of_holds steady ?_ rfl rfl
      rw [WgState.setPeerState]
      dsimp only
      rw [Function.update_of_ne (Ne.symm here)]
      exact .refl _
  · rw [decided]
    refine .of_holds steady (WgState.Holds.setPeerState ?_ ref) rfl rfl
    exact .of_eq rfl rfl rfl

theorem run_treats (roles : KeepsRoles c) (responds : sec.AsResponder c) (steady : (wg.peers ref).Steady)
    (ok : sec.run c env wg = .ok (next, more)) : sec.Treats c env wg next ref := by
  cases sec with
  | accept p addr r peer =>
    obtain ⟨⟨_, _⟩, accepted, ok⟩ := bind_eq_ok.mp ok
    obtain ⟨rfl, rfl⟩ := Prod.mk.inj (Except.ok.inj ok)
    exact .of_holds steady (WgState.acceptInitiation_holds roles responds accepted ref) rfl rfl
  | verify p addr selfId peer =>
    obtain ⟨⟨verified, _⟩, verifies, ok⟩ := bind_eq_ok.mp ok
    have holds := WgState.verifyResponse_holds c verifies ref
    cases verified <;> obtain ⟨rfl, rfl⟩ := Prod.mk.inj (Except.ok.inj ok) <;>
      exact .of_holds steady holds rfl rfl
  | finish p addr selfId peerId hs peer => exact finish_treats steady ok
  | cookie p peer =>
    obtain ⟨_, accepted, ok⟩ := bind_eq_ok.mp ok
    obtain ⟨rfl, rfl⟩ := Prod.mk.inj (Except.ok.inj ok)
    exact .of_holds steady (WgState.acceptCookieReply_holds c accepted ref) rfl rfl
  | decide p addr selfId peer =>
    obtain ⟨rfl, rfl⟩ := Prod.mk.inj (Except.ok.inj ok)
    exact decide_treats steady env p addr selfId peer
  | send packet peer =>
    obtain ⟨rfl, rfl⟩ := Prod.mk.inj (Except.ok.inj ok)
    exact send_treats steady env packet peer
  | setEndpoint addr peer =>
    obtain ⟨q, set, ok⟩ := bind_eq_ok.mp ok
    obtain ⟨rfl, rfl⟩ := Prod.mk.inj (Except.ok.inj ok)
    obtain ⟨_, rfl⟩ := setEndpoint_roamed set
    exact .of_holds steady (WgState.Holds.setPeerState (.roamed _ addr) ref) rfl rfl
  | insertId selfId peer =>
    obtain ⟨rfl, rfl⟩ := Prod.mk.inj (Except.ok.inj ok)
    exact .of_holds steady (.refl _) rfl rfl
  | doHandshake peer =>
    obtain ⟨rfl, rfl⟩ := Prod.mk.inj (Except.ok.inj ok)
    exact .of_holds steady (WgState.doHandshake_holds wg env peer ref) rfl rfl
  | keepalive peer =>
    obtain ⟨rfl, rfl⟩ := Prod.mk.inj (Except.ok.inj ok)
    exact .of_holds steady (WgState.doKeepalive1_holds c wg env peer ref) rfl rfl
  | rearm peer | dropScope peer =>
    obtain ⟨rfl, rfl⟩ := Prod.mk.inj (Except.ok.inj ok)
    refine .of_holds steady (WgState.Holds.setPeerState ?_ ref) rfl rfl
    exact .of_eq rfl rfl rfl
  | dropHandshake peer =>
    obtain ⟨rfl, rfl⟩ := Prod.mk.inj (Except.ok.inj ok)
    refine .of_holds steady (WgState.Holds.of_update (WgState.dropGuards_peers ..) ?_ ref) rfl rfl
    exact .of_eq rfl rfl rfl
  | clear peer =>
    obtain ⟨rfl, rfl⟩ := Prod.mk.inj (Except.ok.inj ok)
    exact .of_empties steady (WgState.clearPeer_empties wg env peer) id rfl rfl
  | addPeer publicKey =>
    obtain ⟨rfl, rfl⟩ := Prod.mk.inj (Except.ok.inj ok)
    unfold WgState.addPeer
    split_ifs
    · exact .of_holds steady (.refl _) rfl rfl
    · exact .of_empties steady (WgState.Empties.of_update rfl rfl) id rfl rfl
  | configure command peer =>
    obtain ⟨_, configured, ok⟩ := bind_eq_ok.mp ok
    obtain ⟨rfl, rfl⟩ := Prod.mk.inj (Except.ok.inj ok)
    obtain ⟨_, holds⟩ | ⟨changed, empties⟩ := WgState.configure_queues configured
    · exact .of_holds steady (holds ref) rfl rfl
    · exact .of_empties steady empties (fun here => ⟨here, here ▸ changed⟩) rfl rfl
  | unlist publicKey =>
    simp only [run] at ok
    split at ok <;> obtain ⟨rfl, rfl⟩ := Prod.mk.inj (Except.ok.inj ok) <;>
      exact .of_holds steady (.refl _) rfl rfl
  | detach peer =>
    obtain ⟨_, detached, ok⟩ := bind_eq_ok.mp ok
    obtain ⟨rfl, rfl⟩ := Prod.mk.inj (Except.ok.inj ok)
    exact .of_empties steady (WgState.detach_empties detached) id rfl rfl
  | storeKey key =>
    obtain ⟨rfl, rfl⟩ := Prod.mk.inj (Except.ok.inj ok)
    exact .of_holds steady (.refl _) rfl rfl

/-- A session that a message is accepted on may be used for sending from then on. -/
theorem Confirms.usable (confirms : sec.Confirms c wg ref) (ok : sec.run c env wg = .ok (next, more)) :
    (next.peers ref).Usable ∧ (next.peers ref).queue = (wg.peers ref).queue := by
  cases sec with
  | decide p addr selfId peer =>
    obtain ⟨rfl, t, session, opens⟩ := confirms
    have after : (wg.decideTransport c env p addr selfId peer).2 = next := (Prod.mk.inj (Except.ok.inj ok)).1
    rcases WgState.decideTransport_cases c wg env p addr selfId peer with
      ⟨u, h, plain, found, opened, _, decided⟩ | ⟨refused, _⟩
    · obtain rfl := Option.some.inj (session.symm.trans found)
      rw [← after, decided, WgState.setPeerState]
      dsimp only
      rw [Function.update_self]
      obtain ⟨⟨_, young, _⟩, _⟩ := Transport.decrypt_eq_some c opened
      refine ⟨usable_iff.mpr ⟨t.accept (Transport.counterOf p), ?_, ?_⟩, rfl⟩
      · exact ArrayVec.mem_replaceFirst_self session
      · simp only [Transport.getShouldSend, Transport.accept, young, Bool.and_true]
        cases t.isInitiator <;> simp
    · rw [refused t session] at opens
      cases opens
  | accept p addr r peer | verify p addr selfId peer | insertId selfId peer | setEndpoint addr peer
  | finish p addr selfId peerId hs peer | cookie p peer | doHandshake peer | send packet peer
  | keepalive peer | rearm peer | dropScope peer | dropHandshake peer | clear peer | addPeer pk
  | configure command peer | unlist pk | detach peer | storeKey key => cases confirms

end Section

theorem Op.begin_holds {c : Crypto HS} {op : Op} {wg next : WgState HS}
    (ok : op.begin c env wg = .ok (next, task)) : wg.Holds next := by
  have does := begin_does c ok
  have still {middle : WgState HS} (ok : (Except.ok (middle, []) : Exec _) = .ok (next, task))
      (same : middle.peers = wg.peers) : wg.Holds next := by
    obtain ⟨rfl, rfl⟩ := Prod.mk.inj (Except.ok.inj ok)
    exact .of_peers same
  cases op with
  | config op =>
    cases op <;> obtain ⟨rfl, _⟩ := does <;> exact .of_peers rfl
  | setKey order key | packet padded =>
    obtain ⟨rfl, _⟩ := does
    exact .of_peers rfl
  | datagram bytes addr =>
    obtain ⟨⟨_, rfl⟩, _⟩ := does
    exact .of_peers rfl
  | timer peer kind =>
    obtain ⟨rfl, _⟩ := Prod.mk.inj (Except.ok.inj ok)
    refine .setPeerState ?_
    cases kind <;> exact .of_eq rfl rfl rfl
  | resend loop =>
    obtain ⟨⟨_, _⟩, resent, ok⟩ := bind_eq_ok.mp ok
    obtain ⟨rfl, _⟩ := Prod.mk.inj (Except.ok.inj ok)
    exact WgState.resendIteration_holds c resent
  | session peer i task =>
    obtain ⟨rfl, _⟩ := Prod.mk.inj (Except.ok.inj ok)
    exact .setPeerState (.modify _ i task)
  | setPort newPort prepared =>
    simp only [Op.begin, WgState.setPort] at ok
    by_cases same : newPort = wg.info.port
    · rw [if_pos same] at ok
      exact still ok rfl
    · rw [if_neg same] at ok
      cases prepared with
      | error e => exact still ok rfl
      | ok bound => cases channel : wg.socketChannel <;> rw [channel] at ok <;> exact still ok rfl
  | setFwmark newFwmark marked =>
    simp only [Op.begin, WgState.setFwmark] at ok
    split_ifs at ok
    · exact still ok rfl
    · cases marked <;> exact still ok rfl
  | takeSocket =>
    simp only [Op.begin] at ok
    split at ok <;> exact still ok rfl
  | removeDeferred id | cancelLoop loop | startRx | updateCookieSecret secret | updateMtu mtu =>
    exact still ok rfl

theorem Op.begin_asResponder {c : Crypto HS} (roles : KeepsRoles c) {op : Op} {wg next : WgState HS}
    (ok : op.begin c env wg = .ok (next, task)) : ∀ sec ∈ task, sec.AsResponder c := by
  intro sec member
  cases begin_opens c ok sec member with
  | accept opened _ => exact roles.opened opened
  | _ => trivial

namespace Program

def running (s : Program HS) (l : Label) : Option (Section HS) :=
  match l.event with
  | .start _ => none
  | .proceed => (s.tasks l.task).head?

def arrivals (s : Program HS) (l : Label) (ref : PeerRef) : List Bytes :=
  ((s.running l).map (Section.arrivals ref)).getD []

def departures (s : Program HS) (l : Label) (ref : PeerRef) : List (Transport × Output) :=
  ((s.running l).map (Section.departures c l.env s.wg ref)).getD []

def Discards (s : Program HS) (l : Label) (ref : PeerRef) : Prop :=
  ∃ sec, s.running l = some sec ∧ sec.Discards s.wg ref

def Confirms (s : Program HS) (l : Label) (ref : PeerRef) : Prop :=
  ∃ sec, s.running l = some sec ∧ sec.Confirms c s.wg ref

variable {c} in
theorem Step.asResponder (roles : KeepsRoles c) {s next : Program HS} {l : Label} (step : Step c s l next)
    (responds : ∀ i, ∀ sec ∈ s.tasks i, sec.AsResponder c) : ∀ i, ∀ sec ∈ next.tasks i, sec.AsResponder c := by
  intro j sec member
  cases step with
  | start idle enabled ok =>
    rcases mem_update member with ⟨_, new⟩ | ⟨_, old⟩
    · exact Op.begin_asResponder roles ok sec new
    · exact responds j sec old
  | proceed head free ok =>
    rcases mem_update member with ⟨_, new⟩ | ⟨_, old⟩
    · rcases List.mem_append.mp new with leads | rest
      · cases Section.run_leads c ok sec leads <;> trivial
      · exact responds _ sec (by rw [head]; exact List.mem_cons_of_mem _ rest)
    · exact responds j sec old

end Program

/-- The program, and what has become of the packets for one peer. -/
structure Traffic (HS : Type) where
  program : Program HS
  history : History Bytes (Transport × Output)

namespace Traffic

def start (info : WgInfo) (cookieSecret : U8Array 32) (mtu : BitVec 32) (now : Instant) : Traffic HS :=
  ⟨.start info cookieSecret mtu now, .empty⟩

variable (ref : PeerRef)

def queue (s : Traffic HS) : List Bytes := (s.program.wg.peers ref).queue

/-- A step, and what it does to the packets for a peer. -/
structure Step (s : Traffic HS) (l : Program.Label) (next : Traffic HS) : Prop where
  step : Program.Step c s.program l next.program
  history : next.history =
    s.history.after (s.program.arrivals l ref) (s.program.departures c l ref) (next.queue ref)

/-- Nothing waits while a session may be used, the most recent packets wait otherwise, and packets
leave in the order in which they came. -/
structure Delivers (s : Traffic HS) (l : Program.Label) (next : Traffic HS) : Prop where
  step : s.Step c ref l next
  moves : Moves QUEUE_SIZE (Carries c) (s.program.Discards l ref) (s.queue ref) (s.program.arrivals l ref)
    (s.program.departures c l ref) (next.queue ref)
  flushed : (next.program.wg.peers ref).findTransportToSend.isSome = true → next.queue ref = []
  ordered : next.history.InOrder QUEUE_SIZE (Carries c) (next.queue ref)

structure Sound (s : Traffic HS) : Prop where
  responds : ∀ i, ∀ sec ∈ s.program.tasks i, sec.AsResponder c
  steady : (s.program.wg.peers ref).Steady
  ordered : s.history.InOrder QUEUE_SIZE (Carries c) (s.queue ref)

variable {c} {ref} {s next : Traffic HS} {l : Program.Label}

theorem start_sound {info : WgInfo} {secret : U8Array 32} {mtu : BitVec 32} {now : Instant} :
    (start info secret mtu now).Sound c ref :=
  ⟨fun _ _ member => (by cases member), .of_empty rfl, .empty⟩

theorem Sound.treats (roles : KeepsRoles c) (sound : s.Sound c ref) (step : s.Step c ref l next) :
    Moves QUEUE_SIZE (Carries c) (s.program.Discards l ref) (s.queue ref) (s.program.arrivals l ref)
      (s.program.departures c l ref) (next.queue ref) ∧
    ((s.program.Confirms c l ref → s.queue ref = []) → (next.program.wg.peers ref).Steady) := by
  obtain ⟨program, history⟩ := s
  obtain ⟨after, later⟩ := next
  obtain ⟨step, _⟩ := step
  cases step with
  | start idle enabled ok =>
    have holds := Op.begin_holds ok ref
    refine ⟨?_, fun _ => sound.steady.holds holds⟩
    rw [queue, queue, holds.queue]
    exact .keep
  | @proceed i sec rest more env wg head free ok =>
    have runs : program.running ⟨i, .proceed, env⟩ = some sec := by rw [Program.running, head]; rfl
    have treats := Section.run_treats roles (sound.responds i sec (by rw [head]; exact List.mem_cons_self))
      sound.steady ok
    refine ⟨?_, fun confirmed => treats.steady fun confirms => confirmed ⟨sec, runs, confirms⟩⟩
    have arrives : program.arrivals ⟨i, .proceed, env⟩ ref = sec.arrivals ref := by
      rw [Program.arrivals, runs]
      rfl
    have departs : program.departures c ⟨i, .proceed, env⟩ ref = sec.departures c env program.wg ref := by
      rw [Program.departures, runs]
      rfl
    rw [arrives, departs]
    exact treats.moves.mono fun discards => ⟨sec, runs, discards⟩

theorem Sound.step (roles : KeepsRoles c) (sound : s.Sound c ref) (step : s.Step c ref l next)
    (confirmed : s.program.Confirms c l ref → s.queue ref = []) : next.Sound c ref := by
  obtain ⟨moves, steady⟩ := sound.treats roles step
  refine ⟨step.step.asResponder roles sound.responds, steady confirmed, ?_⟩
  rw [step.history]
  exact sound.ordered.moves (by decide) moves

/-- Where a message is accepted while packets wait, they go on waiting, and there is a session that may
be used. -/
theorem Delivers.unobstructed (delivers : s.Delivers c ref l next) (confirms : s.program.Confirms c l ref) :
    s.queue ref = [] := by
  obtain ⟨sec, runs, confirms⟩ := confirms
  obtain ⟨program, history⟩ := s
  obtain ⟨after, later⟩ := next
  cases delivers.step.step with
  | start idle enabled ok => cases runs
  | proceed head free ok =>
    rw [Program.running, head] at runs
    obtain rfl := Option.some.inj runs
    obtain ⟨usable, same⟩ := confirms.usable ok
    exact same.symm.trans (delivers.flushed usable)

/-- Over every interleaving of operations, packets are neither left behind nor overtaken as long as no
transport message is accepted on a session of their peer while they wait, and no longer. -/
theorem packets_delivered_in_order (roles : KeepsRoles c) (ref : PeerRef) {info : WgInfo} {secret : U8Array 32}
    {mtu : BitVec 32} {now : Instant} {labels : List Program.Label} {last : Traffic HS} :
    Run (Delivers c ref) (start info secret mtu now) labels last ↔
      Run (fun s l next => s.Step c ref l next ∧ (s.program.Confirms c l ref → s.queue ref = []))
        (start info secret mtu now) labels last := by
  refine ⟨fun run => run.mono fun s l next delivers => ⟨delivers.step, delivers.unobstructed⟩, fun run => ?_⟩
  have sound := run.with_invariant (Sound c ref)
    (fun _ _ _ sound step => sound.step roles step.1 step.2) start_sound
  refine sound.mono fun s l next one => ?_
  obtain ⟨⟨step, confirmed⟩, sound⟩ := one
  have kept := sound.step roles step confirmed
  exact ⟨step, (sound.treats roles step).1, kept.steady.flushed, kept.ordered⟩

theorem run_of_program (ref : PeerRef) {admissible : Program HS → Program.Label → Prop} {s last : Program HS}
    (run : Run (fun s l next => Program.Step c s l next ∧ admissible s l) s labels last)
    (history : History Bytes (Transport × Output)) :
    ∃ later, Run (fun s l next => Step c ref s l next ∧ admissible s.program l) ⟨s, history⟩ labels
      ⟨last, later⟩ := by
  induction run generalizing history with
  | nil => exact ⟨history, .nil⟩
  | @cons s l next labels last one _ ih =>
    obtain ⟨later, rest⟩ := ih (history.after (s.arrivals l ref) (s.departures c l ref) (next.wg.peers ref).queue)
    exact ⟨later, .cons ⟨⟨one.1, rfl⟩, one.2⟩ rest⟩

def sampleQueueing : List Program.Label :=
  [Program.starts 0 (.config (.addPeer (zeros 32))), Program.proceeds 0,
    Program.starts 0 (.config (.setPeer ⟨zeros 32, none, some (.v6 ⟨1, 2, 0, 0⟩), none, false, {(.v4 0, 0)}⟩)),
    Program.proceeds 0, Program.starts 0 (.packet ([0x45, 0, 0, 20] ++ List.replicate 16 0)), Program.proceeds 0,
    Program.proceeds 0]

def sampleSession : List Program.Label :=
  sampleQueueing ++ [Program.starts 0 (.resend ⟨0, 0⟩),
    Program.starts 0 (.datagram ([2, 0, 0, 0] ++ List.replicate 88 0) ⟨0, 0, 0, 0⟩), Program.proceeds 0,
    Program.proceeds 0, Program.proceeds 0]

def decidesNothing (s : Program HS) (l : Program.Label) : Bool :=
  match s.running l with
  | some (.decide ..) => false
  | _ => true

theorem not_confirms_of_decidesNothing {s : Program HS} {l : Program.Label} (nothing : decidesNothing s l = true) :
    ¬ s.Confirms c l ref := by
  rintro ⟨sec, runs, confirms⟩
  rw [decidesNothing, runs] at nothing
  cases sec with
  | decide p addr selfId peer => cases nothing
  | _ => cases confirms

theorem packets_delivered_in_order_response :
    ∃ labels last, Run (Delivers Crypto.symbolic 0) (start ⟨zeros 32, 0, 0⟩ (zeros 32) 1280 0)
      (sampleQueueing ++ labels) last ∧
      (last.program.wg.peers 0).findTransportToSend.isSome = true ∧ last.queue 0 = [] := by
  have followed : (((Program.start ⟨zeros 32, 0, 0⟩ (zeros 32) 1280 0).followWith Crypto.symbolic decidesNothing 1
      (sampleQueueing ++ [Program.starts 0 (.resend ⟨0, 0⟩),
        Program.starts 0 (.datagram ([2, 0, 0, 0] ++ List.replicate 88 0) ⟨0, 0, 0, 0⟩),
        Program.proceeds 0, Program.proceeds 0, Program.proceeds 0])).map fun s =>
      ((s.wg.peers 0).findTransportToSend.isSome, (s.wg.peers 0).queue)) = some (true, []) := by
    decide +kernel
  obtain ⟨s, follows, seen⟩ := Option.map_eq_some_iff.mp followed
  obtain ⟨usable, empty⟩ := Prod.mk.inj seen
  obtain ⟨run, _⟩ := Program.run_of_followWith Crypto.symbolic Program.start_within follows
  obtain ⟨history, traffic⟩ := run_of_program 0 run .empty
  have delivers := (packets_delivered_in_order Crypto.symbolic_roles 0).mpr
    (traffic.mono fun _ _ _ step => ⟨step.1, fun confirms =>
      absurd confirms (not_confirms_of_decidesNothing step.2.2)⟩)
  exact ⟨_, ⟨s, history⟩, delivers, usable, empty⟩

/-- A packet waits, the peer makes a handshake of its own, and its first message confirms that: the session
may be used, and the packet still waits. -/
theorem packet_left_behind :
    ∃ labels s, Run (fun s l next => Program.Step Crypto.symbolic s l next ∧ s.OneAtATime l)
      (Program.start ⟨zeros 32, 0, 0⟩ (zeros 32) 1280 0) labels s ∧ (∀ i, s.tasks i = []) ∧
      (s.wg.peers 0).findTransportToSend.isSome = true ∧ (s.wg.peers 0).queue ≠ [] := by
  have followed : (((Program.start ⟨zeros 32, 0, 0⟩ (zeros 32) 1280 0).follow Crypto.symbolic 1 (sampleQueueing ++
      [Program.starts 0 (.datagram ([1, 0, 0, 0] ++ List.replicate 144 0) ⟨0, 0, 0, 0⟩), Program.proceeds 0,
        Program.starts 0 (.datagram ([4, 0, 0, 0] ++ List.replicate 28 0) ⟨0, 0, 0, 0⟩),
        Program.proceeds 0])).map fun s =>
      ((s.tasks 0).isEmpty, (s.wg.peers 0).findTransportToSend.isSome, (s.wg.peers 0).queue.isEmpty)) =
      some (true, true, false) := by decide +kernel
  obtain ⟨s, follows, seen⟩ := Option.map_eq_some_iff.mp followed
  simp only [Prod.mk.injEq, List.isEmpty_iff, List.isEmpty_eq_false_iff] at seen
  obtain ⟨ended, usable, waits⟩ := seen
  obtain ⟨run, within⟩ := Program.run_of_follow Crypto.symbolic Program.start_within follows
  refine ⟨_, s, run.mono fun _ _ _ step => ⟨step.1, ?_⟩, Program.idle_of_within within ended, usable, waits⟩
  exact Program.oneAtATime_of_within step.1 step.2.1 step.2.2

end Traffic

end Titun
