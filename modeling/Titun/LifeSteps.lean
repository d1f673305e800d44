import Titun.KeyConfirmation
import Titun.PeerLife

/-! What each critical section does to the life of its peer. -/
namespace Titun

open PeerState Life Transition

variable {HS : Type} (c : Crypto HS)

/-- Datagrams are counted, and if there are any the timers hear of it. -/
def transmitted (heard : PeerEvent) (outputs : List Output) : List PeerEvent :=
  outputs.map .sent ++ if outputs = [] then [] else [heard]

namespace Section

/-- What a section is for the life of its peer. -/
def lifeEvents (env : Env) (wg : WgState HS) : Section HS → List PeerEvent
  | accept p addr r peer =>
    .received p :: transmitted .established (outputsOf (wg.acceptInitiation c env p addr r peer))
  | verify p _ _ _ | cookie p _ => [.received p]
  | finish _ addr _ peerId hs peer =>
    let sent := outputsOf (wg.finishSession c env addr peerId hs peer)
    .established :: if sent = [] then [.unconfirmed] else sent.map .sent ++ [.sendTransport]
  | decide p _ selfId peer =>
    .received p ::
      match (wg.peers peer).findTransportById selfId with
      | none => []
      | some t => ((t.decrypt c p).1.map fun opened => PeerEvent.recv opened.2.isEmpty).toList
  | doHandshake peer =>
    if (wg.peers peer).handshakeResendScope.isSome ∨ (wg.peers peer).info.endpoint.isNone then []
    else [.handshakeStarted]
  | send packet peer =>
    if (wg.peers peer).info.endpoint.isSome ∧ (wg.peers peer).findTransportToSend.isNone then [.queued]
    else transmitted .sendTransport (wg.sendOrEnqueue c env peer packet).1.2
  | keepalive peer => transmitted .sendKeepalive (wg.doKeepalive1 c env peer).1.2
  | rearm _ => [.rearmed]
  | dropScope _ => [.scopeDropped]
  | clear _ | detach _ => [.cleared]
  | configure command peer =>
    (if (wg.peers peer).info.psk ≠ command.presharedKey then [.cleared] else []) ++
      (command.keepalive.map .intervalSet).toList
  | setEndpoint .. | insertId .. | dropHandshake _ | addPeer _ | unlist _ | storeKey _ => []

def Adds (wg : WgState HS) (ref : PeerRef) : Section HS → Prop
  | addPeer publicKey => ref = wg.nextPeer ∧ (wg.pubkeyMap.get publicKey).isSome = false
  | _ => False

end Section

/-- What starting an operation is for the life of a peer. -/
def Op.lifeEvents (env : Env) (wg : WgState HS) (ref : PeerRef) : Op → List PeerEvent
  | .timer peer kind =>
    if peer = ref then [.polled kind (((wg.peers peer).timer kind).poll env.now).1] else []
  | .resend loop => if loop.peer = ref then (outputsOf (wg.resendIteration c env loop)).map .sent else []
  | _ => []

namespace WgState

variable {wg middle next : WgState HS}

/-- One peer goes through events, and the others through none. -/
def Ages (peer : PeerRef) (now : Instant) (events : List PeerEvent) (wg next : WgState HS) : Prop :=
  (wg.peers peer).life.Passes now events (next.peers peer).life ∧
    ∀ ref, ref ≠ peer → (next.peers ref).life = (wg.peers ref).life

theorem Ages.of_update {q : PeerState HS} (peers : next.peers = Function.update wg.peers peer q)
    (passes : (wg.peers peer).life.Passes now events q.life) : wg.Ages peer now events next := by
  constructor
  · rw [peers, Function.update_self]
    exact passes
  · intro ref apart
    rw [peers, Function.update_of_ne apart]

theorem Ages.setPeerState {q : PeerState HS} (passes : (wg.peers peer).life.Passes now events q.life) :
    wg.Ages peer now events (wg.setPeerState peer q) := .of_update rfl passes

theorem Ages.of_peers (peer : PeerRef) (now : Instant) (same : next.peers = wg.peers) : wg.Ages peer now [] next := by
  constructor
  · rw [same]
    exact .nothing _ now
  · intro ref apart
    rw [same]

variable {c}

theorem acceptInitiation_ages (ok : wg.acceptInitiation c env p addr r peer = .ok (next, outputs)) :
    wg.Ages peer env.now (.received p :: transmitted .established outputs) next := by
  rcases acceptInitiation_cases c ok with ⟨_, rfl, _, rfl⟩ | ⟨response, hs, mac1, q, _, _, _, rfl, leaves, rfl⟩
  · exact .setPeerState (.one trivial rfl)
  · exact .of_update (dropGuards_peers ..) leaves.life

theorem finishSession_ages (ok : wg.finishSession c env addr peerId hs peer = .ok (next, outputs)) :
    wg.Ages peer env.now (.established ::
      if outputs = [] then [.unconfirmed] else outputs.map .sent ++ [.sendTransport]) next := by
  obtain ⟨h, u, q, _, leaves, rfl⟩ := finishSession_cases c ok
  exact .of_update (dropGuards_peers ..) leaves.life

theorem verifyResponse_ages (env : Env) (ok : wg.verifyResponse c p selfId peer = .ok (verified, next)) :
    wg.Ages peer env.now [.received p] next := by
  have counted : wg.Ages peer env.now [.received p] (wg.setPeerState peer ((wg.peers peer).countRecv p.length)) :=
    .setPeerState (.one trivial rfl)
  simp only [verifyResponse] at ok
  split at ok
  · obtain ⟨_, rfl⟩ := Prod.mk.inj (Except.ok.inj ok)
    exact counted
  · split_ifs at ok
    · obtain ⟨_, rfl⟩ := Prod.mk.inj (Except.ok.inj ok)
      exact counted
    · obtain ⟨result, _, ok⟩ := bind_eq_ok.mp ok
      cases result <;> obtain ⟨_, rfl⟩ := Prod.mk.inj (Except.ok.inj ok) <;> exact counted

theorem acceptCookieReply_ages (ok : wg.acceptCookieReply c env p peer = .ok next) :
    wg.Ages peer env.now [.received p] next := by
  simp only [acceptCookieReply] at ok
  split at ok
  · obtain rfl := Except.ok.inj ok
    exact .setPeerState (.one trivial rfl)
  · obtain ⟨result, _, ok⟩ := bind_eq_ok.mp ok
    cases result <;> obtain rfl := Except.ok.inj ok <;> exact .setPeerState (.one trivial rfl)

theorem decideTransport_ages (wg : WgState HS) (env : Env) (p : Bytes) (addr : SocketAddrV6) (selfId : WgId)
    (peer : PeerRef) : wg.Ages peer env.now ((Section.decide p addr selfId peer).lifeEvents c env wg)
      (wg.decideTransport c env p addr selfId peer).2 := by
  rcases decideTransport_cases c wg env p addr selfId peer with
    ⟨t, h, plain, session, opens, _, decided⟩ | ⟨refused, decided⟩
  · rw [decided]
    simp only [Section.lifeEvents, session, opens, Option.map_some, Option.toList_some]
    have replaced (u : Transport) (same : u.created = t.created) :
        ((wg.peers peer).transports.replaceFirst (fun t => t.selfId = selfId) u).val.map Transport.created =
          (wg.peers peer).transports.val.map Transport.created :=
      ArrayVec.map_replaceFirst _ _ u _ fun x found => by
        rw [Option.some.inj (session.symm.trans found)] at same
        exact same
    refine .setPeerState (.cons trivial (.one trivial ?_))
    exact congrArg (fun l => (l.after env.now (.received p)).after env.now (.recv plain.isEmpty))
      (life_transports (wg.peers peer) (replaced (t.accept (Transport.counterOf p)) rfl))
  · rw [decided]
    have silent : (Section.decide p addr selfId peer).lifeEvents c env wg = [.received p] := by
      simp only [Section.lifeEvents]
      cases session : (wg.peers peer).findTransportById selfId with
      | none => rfl
      | some t => simp [refused t session]
    rw [silent]
    exact .setPeerState (.one trivial rfl)

theorem doHandshake_ages (wg : WgState HS) (env : Env) (peer : PeerRef) :
    wg.Ages peer env.now ((Section.doHandshake peer).lifeEvents c env wg) (wg.doHandshake env peer) := by
  simp only [doHandshake, Section.lifeEvents, getEndpoint]
  by_cases running : (wg.peers peer).handshakeResendScope.isSome
  · simp only [running, true_or, if_true]
    exact .of_peers peer env.now rfl
  · by_cases nowhere : (wg.peers peer).info.endpoint.isNone
    · simp only [running, nowhere, or_true, if_true, Bool.false_eq_true, if_false]
      exact .of_peers peer env.now rfl
    · simp only [running, nowhere, or_false, Bool.false_eq_true, if_false]
      exact .of_update rfl (.one trivial rfl)

theorem created_setTransportToSend {p : PeerState HS} {t : Transport} (found : p.findTransportToSend = some t)
    (packet : Bytes) : (p.transports.replaceFirst Transport.getShouldSend (t.encrypt c packet).2).val.map
      Transport.created = p.transports.val.map Transport.created := by
  apply ArrayVec.map_replaceFirst
  intro x same
  obtain rfl := Option.some.inj (found.symm.trans same)
  have created := congrArg Transport.created (t.origin_encrypt c packet)
  exact created

theorem sendOrEnqueue_ages (wg : WgState HS) (env : Env) (packet : Bytes) (peer : PeerRef) :
    wg.Ages peer env.now ((Section.send packet peer).lifeEvents c env wg) (wg.sendOrEnqueue c env peer packet).2 := by
  simp only [Section.lifeEvents]
  unfold sendOrEnqueue
  cases endpoint : (wg.peers peer).info.endpoint with
  | none =>
    simp only [getEndpoint, endpoint]
    exact .of_peers peer env.now rfl
  | some addr =>
    cases session : (wg.peers peer).findTransportToSend with
    | none =>
      simp only [getEndpoint, endpoint, session]
      exact .of_update rfl (.one trivial (life_enqueuePacket ..))
    | some t =>
      have same := life_transports _ (created_setTransportToSend (c := c) session packet)
      cases result : (t.encrypt c packet).1.1 with
      | none =>
        simp only [getEndpoint, endpoint, session, result]
        refine .setPeerState ?_
        rw [setTransportToSend, same]
        exact .nothing _ _
      | some out =>
        simp only [getEndpoint, endpoint, session, result]
        refine .setPeerState (.cons trivial (.one trivial ?_))
        exact congrArg (fun l => (l.after env.now (.sent (.sendTo out addr))).after env.now .sendTransport) same

theorem doKeepalive1_ages (wg : WgState HS) (env : Env) (peer : PeerRef) :
    wg.Ages peer env.now ((Section.keepalive peer).lifeEvents c env wg) (wg.doKeepalive1 c env peer).2 := by
  simp only [Section.lifeEvents]
  unfold doKeepalive1
  cases endpoint : (wg.peers peer).info.endpoint with
  | none =>
    simp only [getEndpoint, endpoint]
    exact .of_peers peer env.now rfl
  | some addr =>
    cases session : (wg.peers peer).findTransportToSend with
    | none =>
      simp only [getEndpoint, endpoint, session]
      exact .of_peers peer env.now rfl
    | some t =>
      have same := life_transports _ (created_setTransportToSend (c := c) session [])
      cases result : (t.encrypt c []).1.1 with
      | none =>
        simp only [getEndpoint, endpoint, session, result]
        refine .setPeerState ?_
        rw [setTransportToSend, same]
        exact .nothing _ _
      | some out =>
        simp only [getEndpoint, endpoint, session, result]
        refine .setPeerState (.cons trivial (.one trivial ?_))
        exact congrArg (fun l => (l.after env.now (.sent (.sendTo out addr))).after env.now .sendKeepalive) same

theorem clearPeer_ages (wg : WgState HS) (env : Env) (peer : PeerRef) :
    wg.Ages peer env.now [.cleared] (wg.clearPeer env peer) :=
  .of_update (dropGuards_peers ..) (.one trivial rfl)

theorem detach_ages (ok : wg.detach env peer = .ok next) : wg.Ages peer env.now [.cleared] next := by
  obtain ⟨rt, _, ok⟩ := bind_eq_ok.mp ok
  obtain rfl := Except.ok.inj ok
  exact clearPeer_ages wg env peer

theorem dropDisplaced_life {peers after : PeerRef → PeerState HS}
    (ok : dropDisplaced peer peers displaced = .ok after) (ref : PeerRef) : (after ref).life = (peers ref).life := by
  induction displaced generalizing peers with
  | nil =>
    obtain rfl := Except.ok.inj ok
    rfl
  | cons head rest ih =>
    obtain ⟨old, ip⟩ := head
    simp only [dropDisplaced] at ok
    split_ifs at ok
    · cases ok
    obtain ⟨_, _, ok⟩ := bind_eq_ok.mp ok
    rw [ih ok]
    by_cases here : ref = old
    · subst here
      rw [Function.update_self]
      rfl
    · rw [Function.update_of_ne here]

theorem setPeerInfo_passes (env : Env) (p : PeerState HS) (command : SetPeerCommand) :
    p.life.Passes env.now ((if p.info.psk ≠ command.presharedKey then [.cleared] else []) ++
      (command.keepalive.map .intervalSet).toList) (setPeerInfo env p command).2.life := by
  have cleared : p.life.Passes env.now (if p.info.psk ≠ command.presharedKey then [.cleared] else [])
      (setPsk p command.presharedKey).2.life := by
    by_cases same : p.info.psk = command.presharedKey
    · rw [if_neg (not_not.mpr same), setPsk, if_neg (not_not.mpr same)]
      exact .nothing _ _
    · rw [if_pos same, setPsk, if_pos same]
      exact .one trivial rfl
  have pinned : (pinEndpoint (setPsk p command.presharedKey).2 command.endpoint).life =
      (setPsk p command.presharedKey).2.life := by
    cases command.endpoint <;> rfl
  refine cleared.append ?_
  simp only [setPeerInfo]
  rw [← pinned]
  cases command.keepalive with
  | none => exact .nothing _ _
  | some interval =>
    generalize pinEndpoint (setPsk p command.presharedKey).2 command.endpoint = q
    refine .one trivial ?_
    have interval_eq : q.life.interval = q.info.keepalive := rfl
    simp only [setKeepalive, Life.after, interval_eq]
    split_ifs <;> rfl

theorem configure_ages (ok : wg.configure env peer command = .ok next) :
    wg.Ages peer env.now ((Section.configure command peer).lifeEvents c env wg) next := by
  simp only [configure] at ok
  obtain ⟨⟨displaced, rt, allowedIps⟩, _, ok⟩ := bind_eq_ok.mp ok
  obtain ⟨peers, dropped, ok⟩ := bind_eq_ok.mp ok
  obtain rfl := Except.ok.inj ok
  have later := dropDisplaced_life dropped
  dsimp only [setPeerState] at later
  constructor
  · have own := later peer
    rw [Function.update_self] at own
    dsimp only
    rw [own]
    exact setPeerInfo_passes env (wg.peers peer) command
  · intro ref apart
    simpa only [Function.update_of_ne apart, dropGuards_peers] using later ref

theorem resendIteration_ages (ok : wg.resendIteration c env loop = .ok (next, outputs)) :
    wg.Ages loop.peer env.now (outputs.map .sent) next := by
  obtain ⟨⟨middle, sent⟩, resent, ok⟩ := bind_eq_ok.mp ok
  have ages : wg.Ages loop.peer env.now (sent.map .sent) middle := by
    simp only [resendInitiation] at resent
    split at resent
    · obtain ⟨rfl, rfl⟩ := Prod.mk.inj (Except.ok.inj resent)
      exact .of_peers _ _ rfl
    · split at resent
      · obtain ⟨rfl, rfl⟩ := Prod.mk.inj (Except.ok.inj resent)
        exact .of_peers _ _ (dropGuards_peers _ env [env.id])
      · obtain ⟨_, _, resent⟩ := bind_eq_ok.mp resent
        obtain ⟨rfl, rfl⟩ := Prod.mk.inj (Except.ok.inj resent)
        exact .of_update (dropGuards_peers ..) (.one trivial rfl)
  dsimp only at ok
  split_ifs at ok
  · obtain ⟨rfl, rfl⟩ := Prod.mk.inj (Except.ok.inj ok)
    exact ages
  · obtain ⟨rfl, rfl⟩ := Prod.mk.inj (Except.ok.inj ok)
    exact ages

end WgState

namespace Section

open WgState

variable {c} {wg next : WgState HS} {sec : Section HS}

/-- A section lets its peer go through events and no other peer, unless it makes one. -/
structure Moves (env : Env) (wg next : WgState HS) (sec : Section HS) : Prop where
  own : ∀ ref, sec.peer? = some ref → (wg.peers ref).life.Passes env.now (sec.lifeEvents c env wg) (next.peers ref).life
  others : ∀ ref, sec.peer? ≠ some ref → ¬ sec.Adds wg ref → (next.peers ref).life = (wg.peers ref).life
  made : ∀ ref, sec.Adds wg ref → (next.peers ref).life = .new env.now

theorem Moves.of_ages (about : sec.peer? = some peer) (ages : wg.Ages peer env.now (sec.lifeEvents c env wg) next) :
    sec.Moves (c := c) env wg next := by
  constructor
  · intro ref this
    obtain rfl := Option.some.inj (about.symm.trans this)
    exact ages.1
  · intro ref other _
    apply ages.2
    rintro rfl
    exact other about
  · intro ref adds
    cases sec <;> first | exact adds.elim | cases about

theorem Moves.of_peers (nobody : sec.peer? = none) (none_made : ∀ ref, ¬ sec.Adds wg ref) (same : next.peers = wg.peers) :
    sec.Moves (c := c) env wg next := by
  constructor
  · intro ref this
    cases nobody.symm.trans this
  · intro ref _ _
    rw [same]
  · intro ref adds
    exact absurd adds (none_made ref)

theorem run_life (ok : sec.run c env wg = .ok (next, more)) : sec.Moves (c := c) env wg next := by
  cases sec with
  | accept p addr r peer =>
    obtain ⟨⟨_, _⟩, accepted, ok⟩ := bind_eq_ok.mp ok
    obtain ⟨rfl, rfl⟩ := Prod.mk.inj (Except.ok.inj ok)
    apply Moves.of_ages rfl
    rw [lifeEvents, accepted]
    exact acceptInitiation_ages accepted
  | verify p addr selfId peer =>
    obtain ⟨⟨verified, _⟩, verifies, ok⟩ := bind_eq_ok.mp ok
    have ages := verifyResponse_ages env verifies
    cases verified <;> obtain ⟨rfl, rfl⟩ := Prod.mk.inj (Except.ok.inj ok) <;> exact .of_ages rfl ages
  | finish p addr selfId peerId hs peer =>
    obtain ⟨⟨_, _⟩, finished, ok⟩ := bind_eq_ok.mp ok
    obtain ⟨rfl, rfl⟩ := Prod.mk.inj (Except.ok.inj ok)
    apply Moves.of_ages rfl
    rw [lifeEvents, finished]
    exact finishSession_ages finished
  | cookie p peer =>
    obtain ⟨_, accepted, ok⟩ := bind_eq_ok.mp ok
    obtain ⟨rfl, rfl⟩ := Prod.mk.inj (Except.ok.inj ok)
    exact .of_ages rfl (acceptCookieReply_ages accepted)
  | decide p addr selfId peer =>
    obtain ⟨rfl, rfl⟩ := Prod.mk.inj (Except.ok.inj ok)
    exact .of_ages rfl (decideTransport_ages wg env p addr selfId peer)
  | send packet peer =>
    obtain ⟨rfl, rfl⟩ := Prod.mk.inj (Except.ok.inj ok)
    exact .of_ages rfl (sendOrEnqueue_ages wg env packet peer)
  | keepalive peer =>
    obtain ⟨rfl, rfl⟩ := Prod.mk.inj (Except.ok.inj ok)
    exact .of_ages rfl (doKeepalive1_ages wg env peer)
  | setEndpoint addr peer =>
    obtain ⟨q, set, ok⟩ := bind_eq_ok.mp ok
    obtain ⟨rfl, rfl⟩ := Prod.mk.inj (Except.ok.inj ok)
    obtain ⟨_, rfl⟩ := setEndpoint_roamed set
    exact .of_ages rfl (.setPeerState (.nothing _ _))
  | insertId selfId peer =>
    obtain ⟨rfl, rfl⟩ := Prod.mk.inj (Except.ok.inj ok)
    exact .of_ages rfl (.of_peers _ _ rfl)
  | doHandshake peer =>
    obtain ⟨rfl, rfl⟩ := Prod.mk.inj (Except.ok.inj ok)
    exact .of_ages rfl (doHandshake_ages wg env peer)
  | rearm peer | dropScope peer =>
    obtain ⟨rfl, rfl⟩ := Prod.mk.inj (Except.ok.inj ok)
    exact .of_ages rfl (.setPeerState (.one trivial rfl))
  | dropHandshake peer =>
    obtain ⟨rfl, rfl⟩ := Prod.mk.inj (Except.ok.inj ok)
    exact .of_ages rfl (.of_update (dropGuards_peers ..) (.nothing _ _))
  | clear peer =>
    obtain ⟨rfl, rfl⟩ := Prod.mk.inj (Except.ok.inj ok)
    exact .of_ages rfl (clearPeer_ages wg env peer)
  | addPeer publicKey =>
    obtain ⟨rfl, rfl⟩ := Prod.mk.inj (Except.ok.inj ok)
    unfold WgState.addPeer
    cases known : (wg.pubkeyMap.get publicKey).isSome with
    | true => exact .of_peers rfl (fun _ adds => by cases known.symm.trans adds.2) rfl
    | false =>
      constructor
      · intro ref about
        cases about
      · intro ref _ old
        have apart : ref ≠ wg.nextPeer := fun here => old ⟨here, known⟩
        simp only [Bool.false_eq_true, if_false, Function.update_of_ne apart]
      · rintro _ ⟨rfl, _⟩
        simp only [Bool.false_eq_true, if_false, Function.update_self]
        exact life_new publicKey env.now
  | configure command peer =>
    obtain ⟨_, configured, ok⟩ := bind_eq_ok.mp ok
    obtain ⟨rfl, rfl⟩ := Prod.mk.inj (Except.ok.inj ok)
    exact .of_ages rfl (configure_ages configured)
  | unlist publicKey =>
    simp only [run] at ok
    split at ok <;> obtain ⟨rfl, rfl⟩ := Prod.mk.inj (Except.ok.inj ok) <;> exact .of_peers rfl (fun _ => id) rfl
  | detach peer =>
    obtain ⟨_, detached, ok⟩ := bind_eq_ok.mp ok
    obtain ⟨rfl, rfl⟩ := Prod.mk.inj (Except.ok.inj ok)
    exact .of_ages rfl (detach_ages detached)
  | storeKey key =>
    obtain ⟨rfl, rfl⟩ := Prod.mk.inj (Except.ok.inj ok)
    exact .of_peers rfl (fun _ => id) rfl

end Section

theorem Op.begin_life {c : Crypto HS} {op : Op} {wg next : WgState HS} (ok : op.begin c env wg = .ok (next, task))
    (ref : PeerRef) : (wg.peers ref).life.Passes env.now (op.lifeEvents c env wg ref) (next.peers ref).life := by
  have does := begin_does c ok
  have still {middle : WgState HS} (ok : (Except.ok (middle, []) : Exec _) = .ok (next, task))
      (same : middle.peers = wg.peers) : (wg.peers ref).life.Passes env.now [] (next.peers ref).life := by
    obtain ⟨rfl, rfl⟩ := Prod.mk.inj (Except.ok.inj ok)
    rw [same]
    exact .nothing _ _
  have ages {peer : PeerRef} {events : List PeerEvent} (ages : wg.Ages peer env.now events next) :
      (wg.peers ref).life.Passes env.now (if peer = ref then events else []) (next.peers ref).life := by
    split_ifs with here
    · subst here
      exact ages.1
    · rw [ages.2 ref (Ne.symm here)]
      exact .nothing _ _
  cases op with
  | config op =>
    cases op <;> obtain ⟨rfl, _⟩ := does <;> exact .nothing _ _
  | setKey order key | packet padded =>
    obtain ⟨rfl, _⟩ := does
    exact .nothing _ _
  | datagram bytes addr =>
    obtain ⟨⟨_, rfl⟩, _⟩ := does
    exact .nothing _ _
  | timer peer kind =>
    obtain ⟨rfl, _⟩ := Prod.mk.inj (Except.ok.inj ok)
    apply ages
    apply WgState.Ages.setPeerState
    apply Passes.one
    · cases kind <;> rfl
    · exact life_setTimer ..
  | resend loop =>
    obtain ⟨⟨_, outputs⟩, resent, ok⟩ := bind_eq_ok.mp ok
    obtain ⟨rfl, _⟩ := Prod.mk.inj (Except.ok.inj ok)
    rw [lifeEvents, resent]
    exact ages (WgState.resendIteration_ages resent)
  | session peer i task =>
    obtain ⟨rfl, _⟩ := Prod.mk.inj (Except.ok.inj ok)
    have same : ((wg.peers peer).transports.modify i task.run).val.map Transport.created =
        (wg.peers peer).transports.val.map Transport.created :=
      ArrayVec.map_modify _ i task.run _ fun t => by cases task <;> rfl
    have passes : wg.Ages peer env.now [] (wg.modifySession peer i task.run) := by
      apply WgState.Ages.setPeerState
      rw [life_transports _ same]
      exact .nothing _ _
    have nothing := ages passes
    rwa [ite_self] at nothing
  | setPort newPort prepared =>
    simp only [Op.begin, WgState.setPort] at ok
    by_cases same : newPort = wg.info.port
    · rw [if_pos same] at ok
      exact still ok rfl
    · rw [if_neg same] at ok
      cases prepared with
      | error e => exact still ok rfl
      | ok bound => cases channel : wg.socketChannel <;> rw [channel] at ok <;> exact still ok rfl
  | setFwmark newFwmark marked =>
    simp only [Op.begin, WgState.setFwmark] at ok
    split_ifs at ok
    · exact still ok rfl
    · cases marked <;> exact still ok rfl
  | takeSocket =>
    simp only [Op.begin] at ok
    split at ok <;> exact still ok rfl
  | removeDeferred id | cancelLoop loop | startRx | updateCookieSecret secret | updateMtu mtu =>
    exact still ok rfl

namespace Program

def lifeEvents (s : Program HS) (l : Label) (ref : PeerRef) : List PeerEvent :=
  match l.event with
  | .start op => op.lifeEvents c l.env s.wg ref
  | .proceed =>
    match s.running l with
    | none => []
    | some sec => if sec.peer? = some ref then sec.lifeEvents c l.env s.wg else []

def Adds (s : Program HS) (l : Label) (ref : PeerRef) : Prop := ∃ sec, s.running l = some sec ∧ sec.Adds s.wg ref

end Program

namespace Program

variable {c} {s next : Program HS} {l : Label}

/-- A peer that a step does not make goes through the events of the step. -/
theorem Step.passes (step : Step c s l next) {ref : PeerRef} (old : ¬ s.Adds l ref) :
    (s.wg.peers ref).life.Passes l.env.now (s.lifeEvents c l ref) (next.wg.peers ref).life := by
  cases step with
  | start idle enabled ok => exact Op.begin_life ok ref
  | @proceed i sec rest more env wg head free ok =>
    have runs : s.running ⟨i, .proceed, env⟩ = some sec := by rw [running, head]; rfl
    have moves := Section.run_life ok
    simp only [lifeEvents, runs]
    split_ifs with about
    · exact moves.own ref about
    · rw [moves.others ref about fun adds => old ⟨sec, runs, adds⟩]
      exact .nothing _ _

theorem Step.born (step : Step c s l next) {ref : PeerRef} (adds : s.Adds l ref) :
    (next.wg.peers ref).life = .new l.env.now := by
  obtain ⟨sec, runs, adds⟩ := adds
  cases step with
  | start idle enabled ok => cases runs
  | @proceed i sec' rest more env wg head free ok =>
    have same : s.running ⟨i, .proceed, env⟩ = some sec' := by rw [running, head]; rfl
    obtain rfl := Option.some.inj (runs.symm.trans same)
    exact (Section.run_life ok).made ref adds

end Program

/-- The program, and what each peer has gone through since it was made. -/
structure Lived (HS : Type) where
  program : Program HS
  history : PeerRef → List (Instant × PeerEvent)

namespace Lived

def start (info : WgInfo) (cookieSecret : U8Array 32) (mtu : BitVec 32) (now : Instant) : Lived HS :=
  ⟨.start info cookieSecret mtu now, fun _ => []⟩

def life (s : Lived HS) (ref : PeerRef) : Life := (s.program.wg.peers ref).life

/-- A step, and what the peers go through in it. -/
structure Step (s : Lived HS) (l : Program.Label) (next : Lived HS) : Prop where
  step : Program.Step c s.program l next.program
  made : ∀ ref, s.program.Adds l ref → next.history ref = []
  later : ∀ ref, ¬ s.program.Adds l ref →
    next.history ref = s.history ref ++ (s.program.lifeEvents c l ref).map fun e => (l.env.now, e)

/-- A peer has lived through its history since it was made. -/
def Follows (s : Lived HS) (ref : PeerRef) : Prop := ∃ birth, Run Life.Step (.new birth) (s.history ref) (s.life ref)

variable {c} {s next : Lived HS} {l : Program.Label}

theorem Step.follows (step : s.Step c l next) {ref : PeerRef} (follows : s.Follows ref) : next.Follows ref := by
  by_cases adds : s.program.Adds l ref
  · refine ⟨l.env.now, ?_⟩
    rw [step.made ref adds, life, step.step.born adds]
    exact .nil
  · obtain ⟨birth, run⟩ := follows
    refine ⟨birth, ?_⟩
    rw [step.later ref adds]
    exact run.append (step.step.passes adds)

/-- Over every interleaving of operations, the timers and the counters of each peer are as the history of the
peer alone makes them. -/
theorem run_follows {info : WgInfo} {secret : U8Array 32} {mtu : BitVec 32} {now : Instant}
    {labels : List Program.Label} (run : Run (Step c) (start info secret mtu now) labels s) (ref : PeerRef) :
    s.Follows ref :=
  run.invariant (fun s => s.Follows ref) (fun _ _ _ follows step => step.follows follows) ⟨now, .nil⟩

theorem run_of_program {s last : Program HS} (run : Run (Program.Step c) s labels last)
    (history : PeerRef → List (Instant × PeerEvent)) : ∃ later, Run (Step c) ⟨s, history⟩ labels ⟨last, later⟩ := by
  classical
  induction run generalizing history with
  | nil => exact ⟨history, .nil⟩
  | @cons s l next labels last one _ ih =>
    obtain ⟨later, rest⟩ := ih fun ref =>
      if s.Adds l ref then [] else history ref ++ (s.lifeEvents c l ref).map fun e => (l.env.now, e)
    exact ⟨later, .cons ⟨one, fun ref adds => if_pos adds, fun ref old => if_neg old⟩ rest⟩

end Lived

end Titun
