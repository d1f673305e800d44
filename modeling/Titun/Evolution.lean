import Titun.PeerEvolution
import Titun.Daemon

/-! How operations change the peers. What is not configuration leaves routing alone and gives
new ids to at most one peer. -/
namespace Titun

open PeerState (Evolves)

namespace WgState

variable {HS : Type} (c : Crypto HS)

/-- The configuration that matters for routing stays, and one peer may get new ids. -/
structure Touches (peer0 : PeerRef) (drawn : List WgId) (wg next : WgState HS) : Prop where
  routing : SameRouting wg next
  peers : ∀ ref, (wg.peers ref).Evolves (if ref = peer0 then drawn else []) (next.peers ref)

namespace Touches

variable {wg middle next : WgState HS} {peer0 : PeerRef}

theorem of_eq (rt : next.rt = wg.rt) (pubkeyMap : next.pubkeyMap = wg.pubkeyMap)
    (nextPeer : next.nextPeer = wg.nextPeer) (peers : next.peers = wg.peers) :
    Touches peer0 [] wg next where
  routing := ⟨rt, pubkeyMap, nextPeer, fun ref => by rw [peers], fun ref => by rw [peers]⟩
  peers ref := by
    rw [peers, ite_self]
    exact .refl _

theorem refl (wg : WgState HS) : Touches peer0 [] wg wg := of_eq rfl rfl rfl rfl

theorem trans (first : Touches peer0 drawn wg middle) (second : Touches peer0 [] middle next) :
    Touches peer0 drawn wg next where
  routing := first.routing.trans second.routing
  peers ref := by
    have both := (first.peers ref).append (second.peers ref)
    rwa [ite_self] at both

theorem precededBy (touches : Touches peer0 drawn middle next) (first : Touches peer0 [] wg middle) :
    Touches peer0 drawn wg next where
  routing := first.routing.trans touches.routing
  peers ref := by
    have both := (first.peers ref).append (touches.peers ref)
    rwa [ite_self, List.append_nil] at both

theorem of_update {p : PeerState HS} (rt : next.rt = wg.rt) (pubkeyMap : next.pubkeyMap = wg.pubkeyMap)
    (nextPeer : next.nextPeer = wg.nextPeer) (peers : next.peers = Function.update wg.peers peer0 p)
    (evolves : (wg.peers peer0).Evolves drawn p)
    (allowedIps : p.info.allowedIps = (wg.peers peer0).info.allowedIps) :
    Touches peer0 drawn wg next where
  routing := (SameRouting.setPeerState evolves.publicKey allowedIps).trans
    ⟨rt, pubkeyMap, nextPeer, fun ref => by rw [peers]; rfl, fun ref => by rw [peers]; rfl⟩
  peers ref := by
    rw [peers]
    by_cases here : ref = peer0
    · subst here
      simpa using evolves
    · simpa [here] using Evolves.refl (wg.peers ref)

theorem setPeerState {p : PeerState HS} (evolves : (wg.peers peer0).Evolves drawn p)
    (allowedIps : p.info.allowedIps = (wg.peers peer0).info.allowedIps) :
    Touches peer0 drawn wg (wg.setPeerState peer0 p) := of_update rfl rfl rfl rfl evolves allowedIps

theorem weaken (touches : Touches peer0 [] wg next) (drawn : List WgId) : Touches peer0 drawn wg next where
  routing := touches.routing
  peers ref := by
    have evolves := touches.peers ref
    rw [ite_self] at evolves
    exact evolves.weaken _

theorem dropGuards (wg : WgState HS) (env : Env) (ids : List WgId) :
    Touches peer0 [] wg (wg.dropGuards env ids) := by
  obtain ⟨idMap, deferred, eq⟩ := dropGuards_eq wg env ids
  rw [eq]
  exact of_eq rfl rfl rfl rfl

theorem of_dropped {p : PeerState HS} {env : Env} {ids : List WgId} (rt : middle.rt = wg.rt)
    (pubkeyMap : middle.pubkeyMap = wg.pubkeyMap) (nextPeer : middle.nextPeer = wg.nextPeer)
    (peers : middle.peers = Function.update wg.peers peer0 p)
    (evolves : (wg.peers peer0).Evolves drawn p)
    (allowedIps : p.info.allowedIps = (wg.peers peer0).info.allowedIps) :
    Touches peer0 drawn wg (middle.dropGuards env ids) :=
  (of_update rt pubkeyMap nextPeer peers evolves allowedIps).trans (.dropGuards _ env ids)

theorem of_noEffect (noEffect : NoEffect wg next) : Touches peer0 [] wg next := by
  obtain ⟨rxBytes, loadMonitor, rfl⟩ := noEffect
  refine ⟨⟨rfl, rfl, rfl, fun _ => rfl, fun _ => rfl⟩, fun ref => ?_⟩
  rw [ite_self]
  exact .of_eq rfl rfl rfl rfl

end Touches

theorem setEndpoint_eq {p q : PeerState HS} (ok : p.setEndpoint addr = .ok q) :
    q = { p with info := { p.info with endpoint := some addr } } := by
  unfold PeerState.setEndpoint at ok
  obtain ⟨_, _, ok⟩ := bind_eq_ok.mp ok
  exact (Except.ok.inj ok).symm

theorem roam_evolves {p q : PeerState HS} (ok : p.roam addr = .ok q) : p.Evolves [] q ∧
      q.info.allowedIps = p.info.allowedIps ∧ q.handshake = p.handshake ∧
      q.transports = p.transports ∧ q.lastHandshake = p.lastHandshake := by
  unfold PeerState.roam at ok
  split_ifs at ok
  · rw [setEndpoint_eq ok]
    exact ⟨.of_eq rfl rfl rfl rfl, rfl, rfl, rfl, rfl⟩
  · rw [← Except.ok.inj ok]
    exact ⟨.refl p, rfl, rfl, rfl, rfl⟩

theorem doHandshake_touches (wg : WgState HS) (env : Env) (peer0 : PeerRef) :
    Touches peer0 [] wg (wg.doHandshake env peer0) := by
  unfold doHandshake
  dsimp only
  split_ifs
  · exact .refl wg
  · exact .refl wg
  · exact .of_update rfl rfl rfl rfl (.of_eq rfl rfl rfl rfl) rfl

@[simp] theorem dropGuards_peers (wg : WgState HS) (env : Env) (ids : List WgId) :
    (wg.dropGuards env ids).peers = wg.peers := by
  obtain ⟨idMap, deferred, eq⟩ := dropGuards_eq wg env ids
  rw [eq]

theorem pushTransport_transports {p : PeerState HS} {transports : ArrayVec Transport 3}
    (same : p.transports = transports) :
    (p.pushTransport now t).2.transports = (transports.pushFront t).2 := by
  rw [← same]
  rfl

/-- An accepted initiation gives its peer a new id and a later timestamp. -/
theorem acceptInitiation_spec {wg next : WgState HS} {r : InitProcessResult HS}
    (ok : wg.acceptInitiation c env p addr r peer0 = .ok (next, outputs))
    (new : r.timestamp.newer (wg.peers peer0).lastHandshake = true) :
    Touches peer0 [env.id] wg next ∧ (next.peers peer0).lastHandshake = some r.timestamp := by
  have counted : r.timestamp.newer ((wg.peers peer0).countRecv p.length).lastHandshake = true := new
  have later (t : TAI64N) (old : t.newer (wg.peers peer0).lastHandshake = false) :
      t.newer (some r.timestamp) = false := TAI64N.newer_trans old new
  simp only [acceptInitiation, counted, Bool.not_true, Bool.false_eq_true, if_false] at ok
  obtain ⟨response, _, ok⟩ := bind_eq_ok.mp ok
  cases response with
  | none =>
    obtain ⟨rfl, _⟩ := Prod.mk.inj (Except.ok.inj ok)
    refine ⟨.of_update rfl rfl rfl rfl ?_ rfl, by simp [setPeerState]⟩
    exact
      { publicKey := rfl
        stamp := later
        ids := (List.sublist_append_right _ _).subperm
        pending := fun _ => .inr
        session := fun u member => .inl ⟨u, member, .refl u⟩ }
  | some result =>
    obtain ⟨mac1, _, ok⟩ := bind_eq_ok.mp ok
    obtain ⟨peer, roamed, ok⟩ := bind_eq_ok.mp ok
    obtain ⟨rfl, _⟩ := Prod.mk.inj (Except.ok.inj ok)
    obtain ⟨evolves, allowedIps, _, transports, stamp⟩ := roam_evolves roamed
    refine ⟨((Touches.setPeerState ?_ ?_).trans (.dropGuards _ env _)).trans
      (.of_eq rfl rfl rfl rfl), ?_⟩
    · have id : [env.id].Subperm ([env.id] ++ (wg.peers peer0).handshakeIds) :=
        (List.sublist_append_left _ _).subperm
      refine Evolves.pushed (t := Transport.newFromHs c env.now env.id r.peerId result.2)
        evolves.publicKey (fun t old => ?_) rfl (pushTransport_transports transports) id
      exact stamp ▸ later t old
    · exact allowedIps
    · simp only [dropGuards_peers, setPeerState, Function.update_self]
      exact stamp

/-- The queue leaves packet by packet, in order, on the session, which counts them. -/
theorem flushQueue_spec {t u : Transport} {packets : List Bytes}
    (ok : flushQueue c t addr packets = .ok (outputs, u)) :
    (∃ sendCounter, u = { t with sendCounter }) ∧
      List.Forall₂ (fun packet output => ∃ ctr, output = .sendTo (t.sealed c ctr packet) addr) packets outputs := by
  induction packets generalizing t outputs with
  | nil =>
    obtain ⟨rfl, rfl⟩ := Prod.mk.inj (Except.ok.inj ok)
    exact ⟨⟨t.sendCounter, rfl⟩, .nil⟩
  | cons packet packets ih =>
    simp only [flushQueue] at ok
    split_ifs at ok
    · cases ok
    obtain ⟨out, encrypted, ok⟩ := bind_eq_ok.mp ok
    obtain ⟨⟨rest, v⟩, flushed, ok⟩ := bind_eq_ok.mp ok
    obtain ⟨rfl, rfl⟩ := Prod.mk.inj (Except.ok.inj ok)
    obtain ⟨_, rfl, counted⟩ := Transport.encrypt_eq_some c (unwrap_eq_ok.mp encrypted)
    rw [counted] at flushed
    obtain ⟨⟨sendCounter, rfl⟩, later⟩ := ih flushed
    exact ⟨⟨sendCounter, rfl⟩, .cons ⟨t.sendCounter, rfl⟩ later⟩

theorem countPackets_spec (p : PeerState HS) (packets : List Bytes) :
    p.countPackets packets =
      { p with txBytes := p.txBytes + BitVec.ofNat 64 (packets.map fun packet => packet.length + 32).sum } := by
  induction packets generalizing p with
  | nil => simp [PeerState.countPackets]
  | cons packet packets ih =>
    have counted := ih (p.countSend (packet.length + 32))
    simp only [PeerState.countSend, BitVec.add_assoc, ← BitVec.ofNat_add] at counted
    rw [List.map_cons, List.sum_cons]
    exact counted

theorem countPackets_eq (p : PeerState HS) (packets : List Bytes) :
    ∃ txBytes, p.countPackets packets = { p with txBytes } := ⟨_, countPackets_spec p packets⟩

/-- An accepted response turns the pending handshake into a session. -/
theorem finishResponse_spec {wg next : WgState HS}
    (ok : wg.finishResponse c env addr selfId peerId hs peer0 = .ok (next, outputs)) :
    Touches peer0 [] wg next ∧ ∃ handshake, (wg.peers peer0).handshake = some handshake ∧
      ∃ t ∈ (next.peers peer0).transports.val, t.selfId = handshake.selfId := by
  simp only [finishResponse, finishSession, insertId] at ok
  obtain ⟨handshake, pending, ok⟩ := bind_eq_ok.mp ok
  have pending : (wg.peers peer0).handshake = some handshake := unwrap_eq_ok.mp pending
  obtain ⟨peer, roamed, ok⟩ := bind_eq_ok.mp ok
  obtain ⟨evolves, allowedIps, handshakeNone, transports, stamp⟩ := roam_evolves roamed
  set t := Transport.newFromHs c env.now handshake.selfId peerId hs
  have id : [t.selfId].Subperm ([] ++ (wg.peers peer0).handshakeIds) := by
    rw [PeerState.handshakeIds, pending]
    exact List.Subperm.refl _
  have front : peer.transports = ((wg.peers peer0).transports.pushFront t).2 := transports
  obtain ⟨kept, _, first⟩ := (wg.peers peer0).transports.pushFront_val t
  have pushed {q : PeerState HS} (publicKey : q.info.publicKey = peer.info.publicKey)
      (stamp' : q.lastHandshake = peer.lastHandshake) (none : q.handshake = none)
      (same : q.transports = peer.transports) : (wg.peers peer0).Evolves [] q :=
    .pushed (publicKey.trans evolves.publicKey) (fun u old => stamp'.trans stamp ▸ old) none
      (same.trans front) id
  split_ifs at ok
  · obtain ⟨rfl, _⟩ := Prod.mk.inj (Except.ok.inj ok)
    refine ⟨.of_dropped rfl rfl rfl rfl (pushed rfl rfl handshakeNone rfl) allowedIps, handshake,
      pending, t, ?_, rfl⟩
    rw [dropGuards_peers]
    simp only [setPeerState, Function.update_self, PeerState.dequeueAll, front, first,
      List.mem_cons_self]
  · obtain ⟨txBytes, counted⟩ := countPackets_eq peer.dequeueAll.2 peer.dequeueAll.1
    rw [counted] at ok
    obtain ⟨⟨_, u⟩, flushed, ok⟩ := bind_eq_ok.mp ok
    obtain ⟨rfl, _⟩ := Prod.mk.inj (Except.ok.inj ok)
    obtain ⟨⟨sendCounter, isSent⟩, _⟩ := flushQueue_spec c flushed
    have continues : t.Continues u := by
      rw [isSent]
      exact ⟨rfl, fun _ refused => refused⟩
    have found : peer.transports.val.find? (fun _ => true) = some t := by
      rw [front, first]
      rfl
    have sent := pushed (q := { peer.dequeueAll.2 with txBytes }.onSendTransport env.now) rfl rfl
      handshakeNone rfl
    refine ⟨.of_dropped rfl rfl rfl rfl (sent.trans (.replaceFirst fun x same => ?_)) allowedIps,
      handshake, pending, u, ?_, continues.selfId⟩
    · rw [← Option.some.inj (found.symm.trans same)]
      exact continues
    · simp only [dropGuards_peers, setPeerState, Function.update_self]
      exact ArrayVec.mem_replaceFirst_self found

theorem checkMessage_pass {wg next : WgState HS} (long : 32 ≤ len)
    (pass : wg.checkMessage c env p addr len = .ok (.pass, next)) :
    ∃ loadMonitor, next = { wg with loadMonitor } := by
  obtain ⟨_, loadMonitor, check, _⟩ := checkMessage_spec c wg env p addr long
  exact ⟨loadMonitor, (Prod.mk.inj (Except.ok.inj (pass.symm.trans check))).2⟩

theorem init_accepted {wg : WgState HS} {r : InitProcessResult HS}
    (accepts : AcceptsInit c wg env p addr r rs peer0) : ∃ loadMonitor,
      wg.udpProcessHandshakeInit c env p addr =
        acceptInitiation c { wg with loadMonitor } env p addr r peer0 := by
  obtain ⟨_, check⟩ := accepts.checked
  obtain ⟨loadMonitor, rfl⟩ := checkMessage_pass c (by decide) check
  have found : findPeerByPubkey { wg with loadMonitor } rs = some peer0 := accepts.found
  exact ⟨loadMonitor, by simp [udpProcessHandshakeInit, check, accepts.opened, accepts.key, found]⟩

theorem init_accepted_spec {wg next : WgState HS} {r : InitProcessResult HS}
    (accepts : AcceptsInit c wg env p addr r rs peer0)
    (ok : wg.udpProcessHandshakeInit c env p addr = .ok (next, outputs)) :
    Touches peer0 [env.id] wg next ∧ (next.peers peer0).lastHandshake = some r.timestamp := by
  obtain ⟨loadMonitor, handler⟩ := init_accepted c accepts
  rw [handler] at ok
  obtain ⟨touches, stamp⟩ := acceptInitiation_spec c ok accepts.newer
  exact ⟨touches.precededBy (.of_eq rfl rfl rfl rfl), stamp⟩

theorem init_ignored {wg next : WgState HS}
    (ok : wg.udpProcessHandshakeInit c env p addr = .ok (next, outputs))
    (refused : ∀ r rs peer0, ¬ AcceptsInit c wg env p addr r rs peer0) : NoEffect wg next := by
  obtain ⟨_, _, result, noEffect, _⟩ := init_refused c refused fun r passed check processed => by
    by_contra unkeyed
    rw [Option.not_isSome_iff_eq_none] at unkeyed
    obtain ⟨loadMonitor, rfl⟩ := checkMessage_pass c (by decide) check
    simp [udpProcessHandshakeInit, check, processed, unkeyed, unwrap] at ok
  rw [← (Prod.mk.inj (Except.ok.inj (ok.symm.trans result))).1] at noEffect
  exact noEffect

theorem resp_accepted_spec {wg next : WgState HS} (accepts : AcceptsResp c wg env p addr selfId peer0)
    (ok : wg.udpProcessHandshakeResp c env p addr = .ok (next, outputs)) :
    Touches peer0 [] wg next ∧ ∃ t ∈ (next.peers peer0).transports.val, t.selfId = selfId := by
  obtain ⟨_, check⟩ := accepts.checked
  obtain ⟨loadMonitor, rfl⟩ := checkMessage_pass c (by decide) check
  obtain ⟨handshake, ⟨peerId, hs⟩, pending, mine, processed⟩ := accepts.verified
  have found : findPeerById { wg with loadMonitor } selfId = some peer0 := accepts.found
  have counted : ((wg.peers peer0).countRecv p.length).handshake = some handshake := pending
  have handler : wg.udpProcessHandshakeResp c env p addr =
      finishResponse c ({ wg with loadMonitor }.setPeerState peer0
        ((wg.peers peer0).countRecv p.length)) env addr selfId peerId hs peer0 := by
    simp [udpProcessHandshakeResp, check, accepts.index, found, verifyResponse, counted, mine,
      processed]
  rw [handler] at ok
  obtain ⟨touches, other, same, t, session, id⟩ := finishResponse_spec c ok
  refine ⟨touches.precededBy (.of_update rfl rfl rfl rfl (.of_eq rfl rfl rfl rfl) rfl), t, session, ?_⟩
  have same : some handshake = some other := by
    rw [← same, ← pending]
    simp [setPeerState, PeerState.countRecv]
  rw [id, ← Option.some.inj same, mine]

theorem udpProcessCookieReply_touches {wg next : WgState HS}
    (ok : wg.udpProcessCookieReply c env p = .ok next) : ∃ peer0, Touches peer0 [] wg next := by
  simp only [udpProcessCookieReply, acceptCookieReply] at ok
  obtain ⟨selfId, _, ok⟩ := bind_eq_ok.mp ok
  cases found : wg.findPeerById selfId with
  | none =>
    rw [found] at ok
    exact ⟨0, Except.ok.inj ok ▸ .refl wg⟩
  | some peer0 =>
    refine ⟨peer0, ?_⟩
    simp only [found] at ok
    split at ok
    · rw [← Except.ok.inj ok]
      exact .setPeerState (.of_eq rfl rfl rfl rfl) rfl
    · obtain ⟨result, _, ok⟩ := bind_eq_ok.mp ok
      cases result <;> rw [← Except.ok.inj ok] <;>
        exact .setPeerState (.of_eq rfl rfl rfl rfl) rfl

theorem carryOut_touches {wg next : WgState HS}
    (ok : wg.carryOut env addr peer0 decision = .ok (next, outputs)) : Touches peer0 [] wg next := by
  have started (middle : WgState HS) : Touches peer0 [] middle
      (if decision.handshake then middle.doHandshake env peer0 else middle) := by
    split_ifs
    · exact doHandshake_touches middle env peer0
    · exact .refl middle
  simp only [carryOut] at ok
  by_cases sets : decision.setEndpoint = true
  · rw [if_pos sets] at ok
    obtain ⟨middle, endpoint, ok⟩ := bind_eq_ok.mp ok
    obtain ⟨rfl, _⟩ := Prod.mk.inj (Except.ok.inj ok)
    cases result : (wg.peers peer0).setEndpoint addr with
    | error e => simp [result, Except.map] at endpoint
    | ok q =>
      rw [result] at endpoint
      obtain rfl := Except.ok.inj endpoint
      obtain rfl := setEndpoint_eq result
      exact (started _).precededBy (.setPeerState (.of_eq rfl rfl rfl rfl) rfl)
  · rw [if_neg sets] at ok
    obtain ⟨rfl, _⟩ := Prod.mk.inj (Except.ok.inj ok)
    exact started wg

theorem received_evolves {peer : PeerState HS} {t : Transport}
    (session : peer.findTransportById selfId = some t) (ok : t.recvAr.check counter = true)
    (env : Env) (size : Nat) (plain : Bytes) :
    peer.Evolves [] (received peer env size selfId (t.accept counter) plain) := by
  have replaced : peer.Evolves [] { peer with
      transports := peer.transports.replaceFirst (fun u => u.selfId = selfId) (t.accept counter) } :=
    .replaceFirst fun x same => by
      rw [← Option.some.inj (session.symm.trans same)]
      exact Transport.accept_continues ok
  exact replaced.trans (.of_eq rfl rfl rfl rfl)

/-- An accepted transport message is in the replay window of its session before anything
else is done. -/
theorem transport_accepted_spec {wg next : WgState HS} (accepts : AcceptsTransport c wg p selfId peer0)
    (ok : wg.udpProcessTransport c env p addr = .ok (next, outputs)) :
    ∃ middle, Touches peer0 [] wg middle ∧ Touches peer0 [] middle next ∧
      ∃ u ∈ (middle.peers peer0).transports.val, u.selfId = selfId ∧
        u.recvAr.check (Transport.counterOf p) = false := by
  obtain ⟨t, result, session, opens⟩ := accepts.decrypted
  obtain ⟨⟨long, _⟩, check, _⟩ :=
    Transport.decrypt_eq_some c (show _ = some (result.1, result.2) from opens)
  rcases decideTransport_cases c wg env p addr selfId peer0 with
    ⟨t', h, plain, session', _, handshake, decided⟩ | ⟨unopened, _⟩
  swap
  · rw [unopened t session] at opens
    cases opens
  obtain rfl := Option.some.inj (session.symm.trans session')
  simp only [udpProcessTransport, if_neg (Nat.not_lt.mpr long), accepts.index, accepts.found, ok_bind,
    decided] at ok
  refine ⟨_, ?_, carryOut_touches ok, t.accept (Transport.counterOf p), ?_, ?_, Transport.accept_refuses check⟩
  · exact .setPeerState (received_evolves session check env p.length plain) rfl
  · simp only [setPeerState, Function.update_self]
    exact ArrayVec.mem_replaceFirst_self session
  · have id : t.selfId = selfId := PeerState.findTransportById_selfId session
    exact id

theorem udpProcessTransport_touches {wg next : WgState HS}
    (ok : wg.udpProcessTransport c env p addr = .ok (next, outputs)) :
    ∃ peer0, Touches peer0 [] wg next := by
  by_cases accepted : ∃ selfId peer0, AcceptsTransport c wg p selfId peer0
  · obtain ⟨selfId, peer0, accepts⟩ := accepted
    obtain ⟨_, first, second, _⟩ := transport_accepted_spec c accepts ok
    exact ⟨peer0, first.trans second⟩
  · obtain ⟨_, _, result, noEffect, _⟩ :=
      transport_refused c (fun selfId peer0 accepts => accepted ⟨selfId, peer0, accepts⟩) env addr
    rw [← (Prod.mk.inj (Except.ok.inj (ok.symm.trans result))).1] at noEffect
    exact ⟨0, .of_noEffect noEffect⟩

theorem udpProcessHandshakeResp_touches {wg next : WgState HS}
    (ok : wg.udpProcessHandshakeResp c env p addr = .ok (next, outputs)) :
    ∃ peer0, Touches peer0 [] wg next := by
  by_cases accepted : ∃ selfId peer0, AcceptsResp c wg env p addr selfId peer0
  · obtain ⟨_, peer0, accepts⟩ := accepted
    exact ⟨peer0, (resp_accepted_spec c accepts ok).1⟩
  · obtain ⟨_, _, result, noEffect, _⟩ :=
      resp_refused c fun selfId peer0 accepts => accepted ⟨selfId, peer0, accepts⟩
    rw [← (Prod.mk.inj (Except.ok.inj (ok.symm.trans result))).1] at noEffect
    exact ⟨0, .of_noEffect noEffect⟩

/-- A datagram gives a new id only to the peer whose initiation it is. -/
theorem udpProcessing_touches {wg next : WgState HS}
    (ok : wg.udpProcessing c env bytes addr = .ok (next, outputs))
    (draws : Daemon.DrawsId c wg env (.datagram bytes addr) → drawn = [env.id]) :
    ∃ peer0, Touches peer0 drawn wg next := by
  simp only [Daemon.DrawsId] at draws
  simp only [udpProcessing] at ok
  generalize bytes.take BUFSIZE = p at ok draws
  split_ifs at ok with short one two three four
  · obtain ⟨rfl, _⟩ := Prod.mk.inj (Except.ok.inj ok)
    exact ⟨0, (Touches.refl wg).weaken _⟩
  · by_cases accepted : ∃ r rs peer0, AcceptsInit c wg env p addr r rs peer0
    · rw [draws ⟨one, accepted⟩]
      obtain ⟨r, rs, peer0, accepts⟩ := accepted
      exact ⟨peer0, (init_accepted_spec c accepts ok).1⟩
    · have noEffect := init_ignored c ok fun r rs peer0 accepts => accepted ⟨r, rs, peer0, accepts⟩
      exact ⟨0, (Touches.of_noEffect noEffect).weaken _⟩
  · obtain ⟨peer0, touches⟩ := udpProcessHandshakeResp_touches c ok
    exact ⟨peer0, touches.weaken _⟩
  · obtain ⟨_, cookie, ok⟩ := bind_eq_ok.mp ok
    obtain ⟨rfl, _⟩ := Prod.mk.inj (Except.ok.inj ok)
    obtain ⟨peer0, touches⟩ := udpProcessCookieReply_touches c cookie
    exact ⟨peer0, touches.weaken _⟩
  · obtain ⟨peer0, touches⟩ := udpProcessTransport_touches c ok
    exact ⟨peer0, touches.weaken _⟩
  · obtain ⟨rfl, _⟩ := Prod.mk.inj (Except.ok.inj ok)
    exact ⟨0, (Touches.refl wg).weaken _⟩

theorem setTransportToSend_evolves {p : PeerState HS} {t : Transport}
    (session : p.findTransportToSend = some t) (msg : Bytes) :
    p.Evolves [] (p.setTransportToSend (t.encrypt c msg).2) :=
  .replaceFirst fun x same => by
    rw [← Option.some.inj (session.symm.trans same)]
    exact Transport.encrypt_continues c t msg

theorem sendOrEnqueue_touches (wg : WgState HS) (env : Env) (peer0 : PeerRef) (packet : Bytes) :
    Touches peer0 [] wg (wg.sendOrEnqueue c env peer0 packet).2 := by
  unfold sendOrEnqueue
  cases endpoint : (wg.peers peer0).getEndpoint with
  | none => simpa [endpoint] using Touches.refl wg
  | some addr =>
    cases session : (wg.peers peer0).findTransportToSend with
    | none =>
      simp only [endpoint, session]
      exact .setPeerState (.of_eq rfl rfl rfl rfl) rfl
    | some t =>
      have sent := setTransportToSend_evolves c session packet
      simp only [endpoint, session]
      cases (t.encrypt c packet).1.1 with
      | none => exact .setPeerState sent rfl
      | some encrypted => exact .setPeerState (sent.trans (.of_eq rfl rfl rfl rfl)) rfl

theorem tunPacketProcessing_touches {wg next : WgState HS}
    (ok : wg.tunPacketProcessing c env pkt packet = .ok (next, buffer, outputs)) :
    ∃ peer0, Touches peer0 [] wg next := by
  simp only [tunPacketProcessing] at ok
  obtain ⟨⟨_, padded⟩, _, ok⟩ := bind_eq_ok.mp ok
  cases parsed : parseIpPacket padded with
  | none =>
    rw [parsed] at ok
    obtain ⟨rfl, _⟩ := Prod.mk.inj (Except.ok.inj ok)
    exact ⟨0, .refl wg⟩
  | some header =>
    obtain ⟨_, _, dst⟩ := header
    simp only [parsed] at ok
    cases found : wg.findPeerByIp dst with
    | none =>
      rw [found] at ok
      obtain ⟨rfl, _⟩ := Prod.mk.inj (Except.ok.inj ok)
      exact ⟨0, .refl wg⟩
    | some peer0 =>
      have sent := sendOrEnqueue_touches c wg env peer0 padded
      simp only [found] at ok
      refine ⟨peer0, ?_⟩
      by_cases tooLong : padded.length + 32 > BUFSIZE + 32
      · rw [if_pos tooLong] at ok
        cases ok
      · rw [if_neg tooLong] at ok
        obtain ⟨rfl, _⟩ := Prod.mk.inj (Except.ok.inj ok)
        split_ifs
        · exact sent.trans (doHandshake_touches _ env peer0)
        · exact sent

theorem doKeepalive1_touches (wg : WgState HS) (env : Env) (peer0 : PeerRef) :
    Touches peer0 [] wg (wg.doKeepalive1 c env peer0).2 := by
  unfold doKeepalive1
  cases endpoint : (wg.peers peer0).getEndpoint with
  | none => simpa [endpoint] using Touches.refl wg
  | some addr =>
    cases session : (wg.peers peer0).findTransportToSend with
    | none => simpa [endpoint, session] using Touches.refl wg
    | some t =>
      have sent := setTransportToSend_evolves c session []
      simp only [endpoint, session]
      cases (t.encrypt c []).1.1 with
      | none => exact .setPeerState sent rfl
      | some out => exact .setPeerState (sent.trans (.of_eq rfl rfl rfl rfl)) rfl

theorem keepaliveAction_touches (wg : WgState HS) (env : Env) (peer0 : PeerRef) :
    Touches peer0 [] wg (wg.keepaliveAction c env peer0).1 := by
  have sent := doKeepalive1_touches c wg env peer0
  simp only [keepaliveAction]
  split_ifs
  · exact sent.trans (doHandshake_touches _ env peer0)
  · exact sent

theorem clearPeer_touches (wg : WgState HS) (env : Env) (peer0 : PeerRef) :
    Touches peer0 [] wg (wg.clearPeer env peer0) :=
  .of_dropped rfl rfl rfl rfl (.cleared rfl rfl rfl rfl) rfl

theorem timerAction_touches (wg : WgState HS) (env : Env) (peer0 : PeerRef) (kind : TimerKind) :
    Touches peer0 [] wg (wg.timerAction c env peer0 kind).1 := by
  cases kind with
  | rekeyNoRecv => exact doHandshake_touches wg env peer0
  | keepalive => exact keepaliveAction_touches c wg env peer0
  | persistentKeepalive =>
    exact (keepaliveAction_touches c wg env peer0).trans (.setPeerState (.of_eq rfl rfl rfl rfl) rfl)
  | stopHandshake =>
    exact .of_dropped rfl rfl rfl rfl ((Evolves.rehandshake none rfl).trans (.of_eq rfl rfl rfl rfl)) rfl
  | clear => exact clearPeer_touches wg env peer0

theorem runTimer_touches (wg : WgState HS) (env : Env) (peer0 : PeerRef) (kind : TimerKind) :
    Touches peer0 [] wg (wg.runTimer c env peer0 kind).1 := by
  have polled (handle : TimerHandle) :
      Touches peer0 [] wg (wg.setPeerState peer0 ((wg.peers peer0).setTimer handle kind)) := by
    cases kind <;> exact .setPeerState (.of_eq rfl rfl rfl rfl) rfl
  simp only [runTimer]
  split_ifs
  · exact (timerAction_touches c _ env peer0 kind).precededBy (polled _)
  · exact polled _

theorem resendIteration_touches {wg next : WgState HS}
    (ok : wg.resendIteration c env loop = .ok (next, outputs))
    (draws : (wg.peers loop.peer).info.endpoint.isSome → drawn = [env.id]) :
    Touches loop.peer drawn wg next := by
  have sent {middle : WgState HS} {outputs : List Output}
      (ok : wg.resendInitiation c env loop.peer = .ok (middle, outputs)) :
      Touches loop.peer drawn wg middle := by
    simp only [resendInitiation] at ok
    cases endpoint : (wg.peers loop.peer).info.endpoint with
    | none =>
      rw [endpoint] at ok
      obtain ⟨rfl, _⟩ := Prod.mk.inj (Except.ok.inj ok)
      exact (Touches.refl wg).weaken _
    | some addr =>
      rw [draws (by simp [endpoint])]
      simp only [endpoint] at ok
      split at ok
      · obtain ⟨rfl, _⟩ := Prod.mk.inj (Except.ok.inj ok)
        refine Touches.weaken ?_ _
        exact (Touches.dropGuards _ env [env.id]).precededBy (.of_eq rfl rfl rfl rfl)
      · obtain ⟨mac1, _, ok⟩ := bind_eq_ok.mp ok
        obtain ⟨rfl, _⟩ := Prod.mk.inj (Except.ok.inj ok)
        exact .of_dropped rfl rfl rfl rfl
          ((Evolves.rehandshake (some ⟨env.id, _⟩) rfl).trans (.of_eq rfl rfl rfl rfl)) rfl
  simp only [resendIteration] at ok
  obtain ⟨⟨middle, _⟩, first, ok⟩ := bind_eq_ok.mp ok
  split_ifs at ok
  · obtain ⟨rfl, _⟩ := Prod.mk.inj (Except.ok.inj ok)
    exact sent first
  · obtain ⟨rfl, _⟩ := Prod.mk.inj (Except.ok.inj ok)
    exact (sent first).trans (.of_eq rfl rfl rfl rfl)

theorem modifySession_touches (wg : WgState HS) (peer0 : PeerRef) (i : Nat) (task : SessionTask) :
    Touches peer0 [] wg (wg.modifySession peer0 i task.run) := by
  refine .setPeerState (.modify i fun t => ?_) rfl
  cases task <;> exact ⟨rfl, fun _ refused => refused⟩

end WgState

end Titun
