import Titun.Continuations
import Titun.Lib.BoundedQueue

/-! What sections and operations do to the queues of the peers, and which messages they send
packets in. -/
namespace Titun

variable {HS : Type} (c : Crypto HS)

namespace PeerState

/-- The peer has a session that may be used for sending. -/
def Usable (p : PeerState HS) : Prop := p.findTransportToSend.isSome = true

theorem usable_iff {p : PeerState HS} : p.Usable ↔ ∃ t ∈ p.transports.val, t.getShouldSend = true := by
  rw [Usable, findTransportToSend, List.find?_isSome]

/-- The queue stays, no session becomes usable, and a known endpoint stays known. -/
structure Holds (p q : PeerState HS) : Prop where
  queue : q.queue = p.queue
  usable : q.Usable → p.Usable
  endpoint : p.info.endpoint.isSome = true → q.info.endpoint.isSome = true

namespace Holds

variable {p q r : PeerState HS}

theorem of_eq (queue : q.queue = p.queue) (transports : q.transports = p.transports)
    (endpoint : q.info.endpoint = p.info.endpoint) : p.Holds q :=
  ⟨queue, fun usable => by rwa [usable_iff, transports, ← usable_iff] at usable, fun known => by
    rwa [endpoint]⟩

theorem refl (p : PeerState HS) : p.Holds p := of_eq rfl rfl rfl

theorem trans (first : p.Holds q) (second : q.Holds r) : p.Holds r :=
  ⟨second.queue.trans first.queue, fun usable => first.usable (second.usable usable), fun known =>
    second.endpoint (first.endpoint known)⟩

theorem roamed (p : PeerState HS) (a : SocketAddrV6) : p.Holds (p.roamed a) := by
  refine ⟨rfl, id, fun known => ?_⟩
  rw [PeerState.roamed]
  dsimp only
  split_ifs
  · rfl
  · exact known

theorem replaceFirst {pred : Transport → Bool} {t u : Transport} (found : p.transports.val.find? pred = some t)
    (usable : u.getShouldSend = true → t.getShouldSend = true) :
    p.Holds { p with transports := p.transports.replaceFirst pred u } := by
  refine ⟨rfl, fun sends => ?_, id⟩
  obtain ⟨v, member, chosen⟩ := usable_iff.mp sends
  rcases ArrayVec.mem_replaceFirst member with old | rfl
  · exact usable_iff.mpr ⟨v, old, chosen⟩
  · exact usable_iff.mpr ⟨t, List.mem_of_find?_eq_some found, usable chosen⟩

theorem encrypt {t : Transport} (session : p.findTransportToSend = some t) (msg : Bytes) :
    p.Holds (p.setTransportToSend (t.encrypt c msg).2) :=
  replaceFirst session fun _ => List.find?_some session

theorem modify (p : PeerState HS) (i : Nat) (task : SessionTask) :
    p.Holds { p with transports := p.transports.modify i task.run } := by
  refine ⟨rfl, fun sends => ?_, id⟩
  obtain ⟨u, member, sends⟩ := usable_iff.mp sends
  obtain ⟨t, old, rfl | rfl⟩ := ArrayVec.mem_modify member
  · exact usable_iff.mpr ⟨_, old, sends⟩
  · refine usable_iff.mpr ⟨t, old, ?_⟩
    cases task with
    | expireHandshake => exact sends
    | expire => simp [SessionTask.run, Transport.expire, Transport.getShouldSend] at sends

theorem responder {t : Transport} (role : t.isInitiator = false) (unconfirmed : t.hasReceived = false)
    (queue : q.queue = p.queue) (endpoint : p.info.endpoint.isSome = true → q.info.endpoint.isSome = true)
    (transports : q.transports = (p.transports.pushFront t).2) : p.Holds q := by
  refine ⟨queue, fun sends => ?_, endpoint⟩
  obtain ⟨u, member, sends⟩ := usable_iff.mp sends
  obtain ⟨kept, old, pushed⟩ := p.transports.pushFront_val t
  rw [transports, pushed] at member
  rcases List.mem_cons.mp member with rfl | stays
  · simp [Transport.getShouldSend, role, unconfirmed] at sends
  · exact usable_iff.mpr ⟨u, old.subset stays, sends⟩

end Holds

/-- Either the queue is empty, or no session can be used and the endpoint is known. -/
structure Steady (p : PeerState HS) : Prop where
  flushed : p.Usable → p.queue = []
  addressed : p.queue ≠ [] → p.info.endpoint.isSome = true

theorem Steady.of_empty {p : PeerState HS} (empty : p.queue = []) : p.Steady :=
  ⟨fun _ => empty, fun waits => absurd empty waits⟩

theorem Steady.holds {p q : PeerState HS} (steady : p.Steady) (holds : p.Holds q) : q.Steady := by
  refine ⟨fun usable => ?_, fun waits => ?_⟩
  · rw [holds.queue]
    exact steady.flushed (holds.usable usable)
  · rw [holds.queue] at waits
    exact holds.endpoint (steady.addressed waits)

end PeerState

open PeerState

namespace WgState

def Holds (wg next : WgState HS) : Prop := ∀ ref, (wg.peers ref).Holds (next.peers ref)

theorem Holds.of_peers {wg next : WgState HS} (same : next.peers = wg.peers) : wg.Holds next := fun ref => by
  rw [same]
  exact .refl _

theorem Holds.of_update {wg next : WgState HS} {peer : PeerRef} {p : PeerState HS}
    (peers : next.peers = Function.update wg.peers peer p) (holds : (wg.peers peer).Holds p) :
    wg.Holds next := fun ref => by
  rw [peers]
  by_cases here : ref = peer
  · subst here
    rw [Function.update_self]
    exact holds
  · rw [Function.update_of_ne here]
    exact .refl _

theorem Holds.setPeerState {wg : WgState HS} {peer : PeerRef} {p : PeerState HS}
    (holds : (wg.peers peer).Holds p) : wg.Holds (wg.setPeerState peer p) := .of_update rfl holds

theorem acceptInitiation_holds {c : Crypto HS} (roles : KeepsRoles c) {wg next : WgState HS}
    {r : InitProcessResult HS} (responder : c.getIsInitiator r.handshakeState = false)
    (ok : wg.acceptInitiation c env p addr r peer = .ok (next, outputs)) : wg.Holds next := by
  rcases acceptInitiation_cases c ok with ⟨_, _, _, rfl⟩ | ⟨response, hs, mac1, q, _, responded, _, _, leaves, rfl⟩
  · exact .setPeerState (.of_eq rfl rfl rfl)
  · obtain ⟨noise, _, written, _, _⟩ := responde_eq c responded
    have role : c.getIsInitiator hs = false := (roles.write written).trans (roles.pushPsk.trans responder)
    refine .of_update (dropGuards_peers ..) (.responder role rfl leaves.queue ?_ leaves.transports)
    rw [leaves.info]
    exact (Holds.roamed (wg.peers peer) addr).endpoint

theorem verifyResponse_holds {wg next : WgState HS}
    (ok : wg.verifyResponse c p selfId peer = .ok (verified, next)) : wg.Holds next := by
  have counted : wg.Holds (wg.setPeerState peer ((wg.peers peer).countRecv p.length)) :=
    .setPeerState (.of_eq rfl rfl rfl)
  simp only [verifyResponse] at ok
  split at ok
  · obtain ⟨_, rfl⟩ := Prod.mk.inj (Except.ok.inj ok)
    exact counted
  · split_ifs at ok
    · obtain ⟨_, rfl⟩ := Prod.mk.inj (Except.ok.inj ok)
      exact counted
    · obtain ⟨result, _, ok⟩ := bind_eq_ok.mp ok
      cases result <;> obtain ⟨_, rfl⟩ := Prod.mk.inj (Except.ok.inj ok) <;> exact counted

theorem acceptCookieReply_holds {wg next : WgState HS}
    (ok : wg.acceptCookieReply c env p peer = .ok next) : wg.Holds next := by
  simp only [acceptCookieReply] at ok
  split at ok
  · rw [← Except.ok.inj ok]
    exact .setPeerState (.of_eq rfl rfl rfl)
  · obtain ⟨result, _, ok⟩ := bind_eq_ok.mp ok
    cases result <;> rw [← Except.ok.inj ok] <;> exact .setPeerState (.of_eq rfl rfl rfl)

theorem doHandshake_holds (wg : WgState HS) (env : Env) (peer : PeerRef) :
    wg.Holds (wg.doHandshake env peer) := by
  unfold doHandshake
  dsimp only
  split_ifs
  · exact .of_peers rfl
  · exact .of_peers rfl
  · exact .of_update rfl (.of_eq rfl rfl rfl)

theorem doKeepalive1_holds (wg : WgState HS) (env : Env) (peer : PeerRef) :
    wg.Holds (wg.doKeepalive1 c env peer).2 := by
  unfold doKeepalive1
  cases endpoint : (wg.peers peer).getEndpoint with
  | none => exact .of_peers (by simp only [endpoint])
  | some addr =>
    cases session : (wg.peers peer).findTransportToSend with
    | none => exact .of_peers (by simp only [endpoint, session])
    | some t =>
      have sent := PeerState.Holds.encrypt c session []
      simp only [endpoint, session]
      cases (t.encrypt c []).1.1 with
      | none => exact .setPeerState sent
      | some out => exact .setPeerState (sent.trans (.of_eq rfl rfl rfl))

theorem resendIteration_holds {wg next : WgState HS}
    (ok : wg.resendIteration c env loop = .ok (next, outputs)) : wg.Holds next := by
  obtain ⟨⟨middle, _⟩, resent, ok⟩ := bind_eq_ok.mp ok
  have sent : wg.Holds middle := by
    simp only [resendInitiation] at resent
    cases endpoint : (wg.peers loop.peer).info.endpoint with
    | none =>
      rw [endpoint] at resent
      obtain ⟨rfl, _⟩ := Prod.mk.inj (Except.ok.inj resent)
      exact .of_peers rfl
    | some addr =>
      simp only [endpoint] at resent
      cases initiated : initiate c wg.info (wg.peers loop.peer).info env.id env.ephemeral env.time with
      | none =>
        simp only [initiated] at resent
        obtain ⟨rfl, _⟩ := Prod.mk.inj (Except.ok.inj resent)
        exact .of_peers (dropGuards_peers _ env [env.id])
      | some result =>
        obtain ⟨msg, hs⟩ := result
        simp only [initiated] at resent
        obtain ⟨_, _, resent⟩ := bind_eq_ok.mp resent
        obtain ⟨rfl, _⟩ := Prod.mk.inj (Except.ok.inj resent)
        exact .of_update (dropGuards_peers ..) (.of_eq rfl rfl rfl)
  dsimp only at ok
  split_ifs at ok <;> obtain ⟨rfl, _⟩ := Prod.mk.inj (Except.ok.inj ok) <;> exact sent

/-- A packet is dropped where the endpoint is not known, sent on a session that may be used, and queued
where there is none. -/
theorem sendOrEnqueue_queues (wg : WgState HS) (env : Env) (peer : PeerRef) (packet : Bytes) :
    (wg.peers peer).info.endpoint = none ∧ wg.sendOrEnqueue c env peer packet = ((false, []), wg) ∨
    (∃ t, (wg.peers peer).findTransportToSend = some t ∧
      wg.Holds (wg.sendOrEnqueue c env peer packet).2 ∧
      ((wg.sendOrEnqueue c env peer packet).1.2 = [] ∨ ∃ ctr addr,
        (wg.sendOrEnqueue c env peer packet).1.2 = [.sendTo (t.sealed c ctr packet) addr])) ∨
    (wg.peers peer).info.endpoint.isSome = true ∧ (wg.peers peer).findTransportToSend = none ∧
      (wg.sendOrEnqueue c env peer packet).1.2 = [] ∧ (wg.sendOrEnqueue c env peer packet).2.peers =
        Function.update wg.peers peer ((wg.peers peer).enqueuePacket env.now packet) := by
  unfold sendOrEnqueue
  cases endpoint : (wg.peers peer).info.endpoint with
  | none =>
    have unknown : (wg.peers peer).getEndpoint = none := endpoint
    exact .inl ⟨rfl, by simp only [unknown]⟩
  | some addr =>
    have known : (wg.peers peer).getEndpoint = some addr := endpoint
    cases session : (wg.peers peer).findTransportToSend with
    | none =>
      refine .inr (.inr ⟨rfl, rfl, ?_, ?_⟩)
      · simp only [known, session]
      · simp only [known, session]
        rfl
    | some t =>
      have sent := PeerState.Holds.encrypt c session packet
      refine .inr (.inl ⟨t, rfl, ?_⟩)
      simp only [known, session]
      cases result : (t.encrypt c packet).1.1 with
      | none => exact ⟨.setPeerState sent, .inl rfl⟩
      | some out =>
        obtain ⟨_, rfl, _⟩ := Transport.encrypt_eq_some c result
        exact ⟨.setPeerState (sent.trans (.of_eq rfl rfl rfl)), .inr ⟨_, addr, rfl⟩⟩

/-- A peer loses its queue, or nothing happens to any queue. -/
def Empties (peer : PeerRef) (wg next : WgState HS) : Prop :=
  (next.peers peer).queue = [] ∧ ∀ ref, ref ≠ peer → (wg.peers ref).Holds (next.peers ref)

theorem Empties.of_update {wg next : WgState HS} {p : PeerState HS}
    (peers : next.peers = Function.update wg.peers peer p) (empty : p.queue = []) :
    Empties peer wg next := by
  refine ⟨?_, fun ref apart => ?_⟩
  · rw [peers, Function.update_self]
    exact empty
  · rw [peers, Function.update_of_ne apart]
    exact .refl _

theorem clearPeer_empties (wg : WgState HS) (env : Env) (peer : PeerRef) :
    Empties peer wg (wg.clearPeer env peer) := .of_update (dropGuards_peers ..) rfl

theorem detach_empties {wg next : WgState HS} (ok : wg.detach env peer = .ok next) :
    Empties peer wg next := by
  obtain ⟨rt, _, ok⟩ := bind_eq_ok.mp ok
  obtain rfl := Except.ok.inj ok
  exact clearPeer_empties wg env peer

theorem dropDisplaced_holds {peers next : PeerRef → PeerState HS}
    {displaced : List (PeerRef × AllowedIp)} (ok : dropDisplaced peer peers displaced = .ok next) :
    ∀ ref, (peers ref).Holds (next ref) := by
  induction displaced generalizing peers with
  | nil =>
    obtain rfl := Except.ok.inj ok
    exact fun _ => .refl _
  | cons head rest ih =>
    obtain ⟨old, ip⟩ := head
    simp only [dropDisplaced] at ok
    split_ifs at ok
    · cases ok
    obtain ⟨_, _, ok⟩ := bind_eq_ok.mp ok
    refine fun ref => .trans ?_ (ih ok ref)
    by_cases here : ref = old
    · subst here
      rw [Function.update_self]
      exact .of_eq rfl rfl rfl
    · rw [Function.update_of_ne here]
      exact .refl _

theorem setPeerInfo_holds (env : Env) {p : PeerState HS} {command : SetPeerCommand}
    (same : p.info.psk = command.presharedKey) : p.Holds (setPeerInfo env p command).2 := by
  obtain ⟨keepalive, persistentKeepalive, set, _⟩ :=
    setKeepalive_eq (pinEndpoint p command.endpoint) env.now command.keepalive
  have unchanged : setPsk p command.presharedKey = ([], p) := by
    rw [setPsk, if_neg (not_not.mpr same)]
  simp only [setPeerInfo, unchanged, set]
  cases command.endpoint with
  | none => exact .of_eq rfl rfl rfl
  | some e => exact ⟨rfl, id, fun _ => rfl⟩

theorem setPeerInfo_empties (env : Env) {p : PeerState HS} {command : SetPeerCommand}
    (changed : p.info.psk ≠ command.presharedKey) : (setPeerInfo env p command).2.queue = [] := by
  obtain ⟨keepalive, persistentKeepalive, set, _⟩ :=
    setKeepalive_eq (pinEndpoint (setPsk p command.presharedKey).2 command.endpoint) env.now
      command.keepalive
  have cleared : (setPsk p command.presharedKey).2.queue = [] := by
    rw [setPsk, if_pos changed]
    rfl
  simp only [setPeerInfo, set]
  cases command.endpoint <;> exact cleared

theorem configure_queues {wg next : WgState HS} (ok : wg.configure env peer command = .ok next) :
    (wg.peers peer).info.psk = command.presharedKey ∧ wg.Holds next ∨
    (wg.peers peer).info.psk ≠ command.presharedKey ∧ Empties peer wg next := by
  simp only [configure] at ok
  obtain ⟨⟨displaced, rt, allowedIps⟩, _, ok⟩ := bind_eq_ok.mp ok
  obtain ⟨peers, dropped, ok⟩ := bind_eq_ok.mp ok
  obtain rfl := Except.ok.inj ok
  have later := dropDisplaced_holds dropped
  dsimp only [setPeerState] at later
  have others (ref : PeerRef) (apart : ref ≠ peer) : (wg.peers ref).Holds (peers ref) := by
    simpa only [Function.update_of_ne apart, dropGuards_peers] using later ref
  have own := later peer
  rw [Function.update_self] at own
  by_cases same : (wg.peers peer).info.psk = command.presharedKey
  · refine .inl ⟨same, fun ref => ?_⟩
    by_cases here : ref = peer
    · subst here
      refine (setPeerInfo_holds env same).trans (.trans ?_ own)
      exact .of_eq rfl rfl rfl
    · exact others ref here
  · exact .inr ⟨same, own.queue.trans (setPeerInfo_empties env same), others⟩

theorem finishSession_flushes {wg next : WgState HS}
    (ok : wg.finishSession c env addr peerId hs peer = .ok (next, outputs)) :
    Empties peer wg next ∧ ∃ h, (wg.peers peer).handshake = some h ∧
      List.Forall₂ (fun packet output => ∃ ctr,
        output = .sendTo ((Transport.newFromHs c env.now h.selfId peerId hs).sealed c ctr packet) addr)
        (wg.peers peer).queue outputs := by
  obtain ⟨h, u, q, pending, leaves, rfl⟩ := finishSession_cases c ok
  exact ⟨.of_update (dropGuards_peers ..) leaves.queue, h, pending, leaves.sent⟩

end WgState

end Titun
