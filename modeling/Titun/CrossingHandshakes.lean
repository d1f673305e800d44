import Titun.Network
import Titun.QueueEffects

/-! Handshakes that cross: what becomes of those that both sides start. -/
namespace Titun

variable {HS : Type} (c : Crypto HS)

namespace WgState

theorem dropGuards_keeps (wg : WgState HS) (env : Env) (ids : List WgId) :
    (wg.dropGuards env ids).info = wg.info ∧ (wg.dropGuards env ids).pubkeyMap = wg.pubkeyMap ∧
      (wg.dropGuards env ids).peers = wg.peers := by
  obtain ⟨_, _, same⟩ := dropGuards_eq wg env ids
  rw [same]
  exact ⟨rfl, rfl, rfl⟩

theorem checkMessage_genuine {wg : WgState HS} (env : Env) (addr : SocketAddrV6) (long : 32 ≤ len)
    (size : p.length = len) (genuine : verifyMac1 c wg.info p = .ok true) :
    ∃ next, wg.checkMessage c env p addr len = .ok (.pass, next) ∨
      ∃ msg, wg.checkMessage c env p addr len = .ok (.reply msg, next) := by
  obtain ⟨checked, loadMonitor, check, _⟩ := checkMessage_spec c wg env p addr long
  cases checked with
  | pass => exact ⟨_, .inl check⟩
  | reply msg => exact ⟨_, .inr ⟨msg, check⟩⟩
  | drop =>
    simp only [checkMessage, ne_eq, size, not_true_eq_false, if_false, genuine, ok_bind, Bool.not_true,
      Bool.false_eq_true] at check
    split_ifs at check
    · obtain ⟨valid, _, check⟩ := bind_eq_ok.mp check
      cases valid with
      | true => cases check
      | false =>
        obtain ⟨_, _, check⟩ := bind_eq_ok.mp check
        obtain ⟨_, _, check⟩ := bind_eq_ok.mp check
        cases check
    · cases check

theorem acceptInitiation_answers {wg next : WgState HS} {r : InitProcessResult HS}
    (ok : wg.acceptInitiation c env p addr r peer = .ok (next, outputs))
    (newer : r.timestamp.newer (wg.peers peer).lastHandshake = true)
    (written : c.writeMessage (c.pushPsk r.handshakeState ((wg.peers peer).info.psk.getD (zeros 32)))
      env.ephemeral [] 48 = some (noise, hs)) :
    ∃ response cookie q, responde c
        { r with handshakeState := c.pushPsk r.handshakeState ((wg.peers peer).info.psk.getD (zeros 32)) }
        env.id env.ephemeral = .ok (some (response, hs)) ∧
      outputs = [.sendTo (cookieSign c response cookie).val addr] ∧
      next.info = wg.info ∧ next.pubkeyMap = wg.pubkeyMap ∧
      next.peers = Function.update wg.peers peer q ∧ q.info = ((wg.peers peer).roamed addr).info ∧
      q.lastHandshake = some r.timestamp ∧ q.handshake = none ∧ q.handshakeResendScope = none ∧
      q.transports =
        ((wg.peers peer).transports.pushFront (Transport.newFromHs c env.now env.id r.peerId hs)).2 := by
  rcases acceptInitiation_cases c ok with ⟨refused, _⟩ | ⟨response, hs', mac1, q, _, responded, _, rfl, leaves, rfl⟩
  · exact absurd ⟨newer, Option.isSome_iff_exists.mpr ⟨_, written⟩⟩ refused
  · obtain ⟨_, _, written', _, _⟩ := responde_eq c responded
    obtain ⟨_, rfl⟩ := Prod.mk.inj (Option.some.inj (written.symm.trans written'))
    obtain ⟨info, listed, peers⟩ := dropGuards_keeps (wg.setPeerState peer q) env _
    exact ⟨response, _, q, responded, rfl, info, listed, peers, leaves.info, leaves.lastHandshake, leaves.handshake,
      leaves.handshakeResendScope, leaves.transports⟩

theorem init_answers {wg next : WgState HS} {r : InitProcessResult HS}
    (accepts : AcceptsInit c wg env p addr r rs peer)
    (written : c.writeMessage (c.pushPsk r.handshakeState ((wg.peers peer).info.psk.getD (zeros 32)))
      env.ephemeral [] 48 = some (noise, hs))
    (ok : wg.udpProcessHandshakeInit c env p addr = .ok (next, outputs)) :
    (∃ response cookie q, responde c
        { r with handshakeState := c.pushPsk r.handshakeState ((wg.peers peer).info.psk.getD (zeros 32)) }
        env.id env.ephemeral = .ok (some (response, hs)) ∧
      outputs = [.sendTo (cookieSign c response cookie).val addr] ∧
      next.info = wg.info ∧ next.pubkeyMap = wg.pubkeyMap ∧
      next.peers = Function.update wg.peers peer q ∧ q.info = ((wg.peers peer).roamed addr).info ∧
      q.lastHandshake = some r.timestamp ∧ q.handshake = none ∧ q.handshakeResendScope = none ∧
      q.transports =
        ((wg.peers peer).transports.pushFront (Transport.newFromHs c env.now env.id r.peerId hs)).2) ∧
    ∃ dropped, next.registry = (wg.registry.dropAll env.idMapFree dropped).insert env.id peer := by
  obtain ⟨loadMonitor, handler⟩ := init_accepted c accepts
  rw [handler] at ok
  have answers := acceptInitiation_answers c ok accepts.newer written
  refine ⟨answers, ?_⟩
  rcases acceptInitiation_does c ok with ⟨stays, _⟩ | ⟨_, _, _, _, _, _, _, becomes⟩
  · exact absurd ⟨accepts.newer, Option.isSome_iff_exists.mpr ⟨_, written⟩⟩ stays
  · exact ⟨_, becomes.registry⟩

theorem finishSession_finishes {wg next : WgState HS}
    (ok : wg.finishSession c env addr peerId hs peer = .ok (next, outputs)) :
    (∀ output ∈ outputs, ∃ t ctr packet, output = .sendTo (Transport.sealed c t ctr packet) addr) ∧
    next.info = wg.info ∧ next.pubkeyMap = wg.pubkeyMap ∧
    ∃ q t kept, next.peers = Function.update wg.peers peer q ∧ q.info = ((wg.peers peer).roamed addr).info ∧
      q.lastHandshake = (wg.peers peer).lastHandshake ∧ q.handshake = none ∧ q.handshakeResendScope = none ∧
      q.transports.val = t :: kept ∧ kept.Sublist (wg.peers peer).transports.val ∧
      t.isInitiator = c.getIsInitiator hs ∧ t.getShouldSend = t.isInitiator := by
  obtain ⟨h, u, q, _, leaves, rfl⟩ := finishSession_cases c ok
  obtain ⟨info, listed, peers⟩ := dropGuards_keeps (wg.setPeerState peer q) env _
  obtain ⟨kept, sublist, pushed⟩ := (wg.peers peer).transports.pushFront_val u
  obtain ⟨sendCounter, rfl⟩ := leaves.counts
  have front : q.transports.val = { Transport.newFromHs c env.now h.selfId peerId hs with sendCounter } :: kept := by
    rw [leaves.transports]
    exact pushed
  refine ⟨fun output member => ⟨_, leaves.sealed output member⟩, info, listed, q, _, kept, peers, leaves.info,
    leaves.lastHandshake, leaves.handshake, leaves.handshakeResendScope, front, sublist, rfl, ?_⟩
  simp [Transport.getShouldSend, Transport.newFromHs]

theorem resp_finishes {wg next : WgState HS} (accepts : AcceptsResp c wg env p addr selfId peer)
    (ok : wg.udpProcessHandshakeResp c env p addr = .ok (next, outputs)) :
    ∃ h peerId hs, (wg.peers peer).handshake = some h ∧ processResponse c h.hs p = .ok (some (peerId, hs)) ∧
    (∀ output ∈ outputs, ∃ t ctr packet, output = .sendTo (Transport.sealed c t ctr packet) addr) ∧
    next.info = wg.info ∧ next.pubkeyMap = wg.pubkeyMap ∧
    (∃ q t kept, next.peers = Function.update wg.peers peer q ∧ q.info = ((wg.peers peer).roamed addr).info ∧
      q.lastHandshake = (wg.peers peer).lastHandshake ∧ q.handshake = none ∧ q.handshakeResendScope = none ∧
      q.transports.val = t :: kept ∧ kept.Sublist (wg.peers peer).transports.val ∧
      t.isInitiator = c.getIsInitiator hs ∧ t.getShouldSend = t.isInitiator) ∧
    ∃ dropped, next.registry = (wg.registry.insert selfId peer).dropAll env.idMapFree dropped := by
  obtain ⟨_, check⟩ := accepts.checked
  obtain ⟨loadMonitor, rfl⟩ := checkMessage_pass c (by decide) check
  obtain ⟨h, ⟨peerId, hs⟩, pending, mine, processed⟩ := accepts.verified
  have found : findPeerById { wg with loadMonitor } selfId = some peer := accepts.found
  have counted : ((wg.peers peer).countRecv p.length).handshake = some h := pending
  have handler : wg.udpProcessHandshakeResp c env p addr =
      finishResponse c ({ wg with loadMonitor }.setPeerState peer ((wg.peers peer).countRecv p.length)) env
        addr selfId peerId hs peer := by
    simp [udpProcessHandshakeResp, check, accepts.index, found, verifyResponse, counted, mine, processed]
  rw [handler] at ok
  obtain ⟨sends, info, listed, q, t, kept, peers, config, last, handshake, scope, session, sublist, role,
    should⟩ := finishSession_finishes c ok
  obtain ⟨_, _, dropped, _, _, becomes⟩ := finishSession_does c ok
  have self : (({ wg with loadMonitor }.setPeerState peer ((wg.peers peer).countRecv p.length)).insertId
      selfId peer).peers peer = (wg.peers peer).countRecv p.length := Function.update_self ..
  rw [self] at config last sublist
  refine ⟨h, peerId, hs, pending, processed, sends, info, listed, ⟨q, t, kept, ?_, config, last, handshake,
    scope, session, sublist, role, should⟩, dropped, becomes.registry⟩
  exact peers.trans (Function.update_idem ..)

theorem doHandshake_starts (wg : WgState HS) (env : Env) {peer : PeerRef} {addr : SocketAddrV6}
    (known : (wg.peers peer).info.endpoint = some addr) :
    ∃ q loops nextScope, wg.doHandshake env peer =
        { wg with peers := Function.update wg.peers peer q, loops, nextScope } ∧
      q.info = (wg.peers peer).info ∧ q.lastHandshake = (wg.peers peer).lastHandshake ∧
      q.handshake = (wg.peers peer).handshake ∧ q.handshakeResendScope.isSome = true ∧
      q.transports = (wg.peers peer).transports := by
  unfold doHandshake
  dsimp only
  have endpoint : (wg.peers peer).getEndpoint = some addr := known
  by_cases running : (wg.peers peer).handshakeResendScope.isSome = true
  · rw [if_pos running]
    exact ⟨wg.peers peer, wg.loops, wg.nextScope, by rw [Function.update_eq_self], rfl, rfl, rfl, running, rfl⟩
  · rw [if_neg running, endpoint]
    exact ⟨_, _, _, rfl, rfl, rfl, rfl, rfl, rfl⟩

theorem resendIteration_sends {wg next : WgState HS}
    (ok : wg.resendIteration c env loop = .ok (next, outputs)) :
    next.info = wg.info ∧ next.pubkeyMap = wg.pubkeyMap ∧
    (outputs = [] ∧ next.peers = wg.peers ∧ (next.registry = wg.registry ∨
        next.registry = (wg.registry.insert env.id loop.peer).dropAll env.idMapFree [env.id]) ∨
      ∃ addr msg hs cookie q, (wg.peers loop.peer).info.endpoint = some addr ∧
        initiate c wg.info (wg.peers loop.peer).info env.id env.ephemeral env.time = some (msg, hs) ∧
        outputs = [.sendTo (cookieSign c msg cookie).val addr] ∧
        next.peers = Function.update wg.peers loop.peer q ∧ q.info = (wg.peers loop.peer).info ∧
        q.lastHandshake = (wg.peers loop.peer).lastHandshake ∧ q.handshake = some ⟨env.id, hs⟩ ∧
        q.handshakeResendScope = (wg.peers loop.peer).handshakeResendScope ∧
        q.transports = (wg.peers loop.peer).transports ∧
        next.registry = (wg.registry.insert env.id loop.peer).dropAll env.idMapFree
          (wg.peers loop.peer).handshakeIds) := by
  obtain ⟨⟨middle, sent⟩, resent, ok⟩ := bind_eq_ok.mp ok
  have next_eq : ∃ loops, next = { middle with loops } ∧ outputs = sent := by
    dsimp only at ok
    split_ifs at ok <;> obtain ⟨rfl, rfl⟩ := Prod.mk.inj (Except.ok.inj ok) <;> exact ⟨_, rfl, rfl⟩
  obtain ⟨loops, rfl, rfl⟩ := next_eq
  simp only [resendInitiation] at resent
  cases endpoint : (wg.peers loop.peer).info.endpoint with
  | none =>
    rw [endpoint] at resent
    obtain ⟨rfl, rfl⟩ := Prod.mk.inj (Except.ok.inj resent)
    exact ⟨rfl, rfl, .inl ⟨rfl, rfl, .inl rfl⟩⟩
  | some addr =>
    simp only [endpoint] at resent
    cases initiated : initiate c wg.info (wg.peers loop.peer).info env.id env.ephemeral env.time with
    | none =>
      simp only [initiated] at resent
      obtain ⟨rfl, rfl⟩ := Prod.mk.inj (Except.ok.inj resent)
      have guards := dropGuards_keeps (wg.insertId env.id loop.peer) env [env.id]
      have registry := dropGuards_registry (wg.insertId env.id loop.peer) env [env.id]
      exact ⟨guards.1, guards.2.1, .inl ⟨rfl, guards.2.2, .inr registry⟩⟩
    | some result =>
      obtain ⟨msg, hs⟩ := result
      simp only [initiated] at resent
      obtain ⟨mac1, _, resent⟩ := bind_eq_ok.mp resent
      obtain ⟨rfl, rfl⟩ := Prod.mk.inj (Except.ok.inj resent)
      have guards (q : PeerState HS) := dropGuards_keeps ((wg.insertId env.id loop.peer).setPeerState loop.peer q) env
        (wg.peers loop.peer).handshakeIds
      have registry (q : PeerState HS) := dropGuards_registry
        ((wg.insertId env.id loop.peer).setPeerState loop.peer q) env (wg.peers loop.peer).handshakeIds
      exact ⟨(guards _).1, (guards _).2.1, .inr ⟨addr, msg, hs, _, _, rfl, rfl, rfl, (guards _).2.2, rfl,
        rfl, rfl, rfl, rfl, registry _⟩⟩

end WgState

namespace Network

open PeerState (Engaged)
open Transition (Run)

variable (link : Link)

/-- What a side has for the other at any time. -/
structure Knows (x : Side) (wg : WgState HS) : Prop where
  key : wg.info.key = link.key x
  listed : wg.pubkeyMap.get (c.publicKey (link.key x.other)) = some (link.peer x)
  publicKey : (wg.peers (link.peer x)).info.publicKey = c.publicKey (link.key x.other)
  psk : (wg.peers (link.peer x)).info.psk = link.psk
  endpoint : (wg.peers (link.peer x)).info.endpoint = some (link.addr x.other)
  entries : ∀ id ref, wg.registry.get id = some ref → ref = link.peer x
  initiator : ∀ h, (wg.peers (link.peer x)).handshake = some h → c.getIsInitiator h.hs = true
  unconfirmed : ∀ t ∈ (wg.peers (link.peer x)).transports.val, t.getShouldSend = t.isInitiator

/-- An initiation from a side to the other. -/
def InitiationFrom (x : Side) (bytes : Bytes) (index : WgId) (t : TAI64N) (hs : HS) : Prop :=
  Initiation c (link.key x) (link.key x.other) (link.psk.getD (zeros 32)) bytes index t hs

/-- The initiation of a pending handshake is under way, and newer than whatever else is. -/
structure Initiating (s : Network HS) (x : Side) (h : Handshake HS) (d : Datagram) (t : TAI64N) : Prop where
  member : d ∈ s.inFlight
  target : d.target = link.addr x.other
  initiation : InitiationFrom c link x d.bytes h.selfId t h.hs
  newer : t.newer (s.about link x.other).lastHandshake = true
  newest : ∀ e ∈ s.inFlight, e.target = link.addr x.other → e ≠ d → ∀ index u hs,
    InitiationFrom c link x e.bytes index u hs → t.newer (some u) = true

/-- The answer to a pending handshake is under way. -/
structure Responding (s : Network HS) (x : Side) (h : Handshake HS) (d : Datagram) : Prop where
  member : d ∈ s.inFlight
  target : d.target = link.addr x
  answer : Answer c (link.key x) h d.bytes

/-- A pending handshake will be finished. -/
structure Underway (s : Network HS) (x : Side) (h : Handshake HS) : Prop where
  entry : (s.wg x).registry.get h.selfId = some (link.peer x)
  kept : h.selfId ∉ (s.wg x).deferred
  message : (∃ d t, Initiating c link s x h d t) ∨ ∃ d, Responding c link s x h d

/-- What holds in every state. -/
structure Sound (start s : Network HS) : Prop where
  knows : ∀ x, Knows c link x (s.wg x)
  honest : ∀ d ∈ s.inFlight, ∃ x, d.source = link.addr x ∧ d.target = link.addr x.other ∧
    (d.bytes.getD 0 0 = 1 → ∃ index t hs, InitiationFrom c link x d.bytes index t hs)
  resent : ∀ x h, (s.about link x).handshake = some h →
    (s.about link x).handshakeResendScope.isSome = true ∨ Underway c link s x h
  engaged : (∃ x, (s.about link x).lastHandshake ≠ (start.about link x).lastHandshake) →
    ∃ x, (s.about link x).Engaged

variable {c link} {start s next : Network HS}

theorem start_sound (acquainted : start.Acquainted c link) : Sound c link start start where
  knows x :=
    { key := acquainted.key x
      listed := acquainted.listed x
      publicKey := acquainted.publicKey x
      psk := acquainted.psk x
      endpoint := acquainted.endpoint x
      entries := acquainted.idMap x
      initiator := fun h pending => by cases (acquainted.handshake x).symm.trans pending
      unconfirmed := fun t member => by
        have none := acquainted.transports x
        rw [about] at none
        rw [none] at member
        cases member }
  honest d member := by
    rw [acquainted.quiet] at member
    cases member
  resent x h pending := by cases (acquainted.handshake x).symm.trans pending
  engaged := by
    rintro ⟨x, changed⟩
    exact absurd rfl changed

/-- Nothing is left to wait for, so one of the sides may send. -/
theorem Sound.usable (sound : Sound c link start s)
    (accepted : ∃ x, (s.about link x).lastHandshake ≠ (start.about link x).lastHandshake)
    (quiet : ∀ d ∈ s.inFlight, ¬ d.IsHandshake)
    (idle : ∀ x, (s.about link x).handshakeResendScope = none) :
    ∃ x, (s.about link x).findTransportToSend.isSome = true := by
  obtain ⟨x, runs | pending | ⟨t, member, initiated⟩⟩ := sound.engaged accepted
  · rw [idle x] at runs
    cases runs
  · obtain ⟨h, pending⟩ := Option.isSome_iff_exists.mp pending
    rcases sound.resent x h pending with runs | underway
    · rw [idle x] at runs
      cases runs
    · obtain ⟨d, t, initiating⟩ | ⟨d, responding⟩ := underway.message
      · exact absurd (.inl initiating.initiation.type) (quiet d initiating.member)
      · exact absurd (.inr responding.answer.type) (quiet d responding.member)
  · refine ⟨x, PeerState.usable_iff.mpr ⟨t, member, ?_⟩⟩
    rw [(sound.knows x).unconfirmed t member]
    exact initiated

theorem Acquainted.apart_other (acquainted : start.Acquainted c link) (x : Side) :
    link.addr x.other ≠ link.addr x := by
  cases x with
  | left => exact Ne.symm acquainted.apart
  | right => exact acquainted.apart

variable (link) in
/-- A side moves on, and what was under way stays so, but for what it has taken. -/
structure Moves (x : Side) (gone : Datagram → Prop) (s next : Network HS) : Prop where
  other : next.wg x.other = s.wg x.other
  stays : ∀ d ∈ s.inFlight, d ∈ next.inFlight ∨ gone d
  mine : ∀ d, gone d → d.target = link.addr x
  sent : ∀ e ∈ next.inFlight, e ∈ s.inFlight ∨ e.source = link.addr x ∧ e.target = link.addr x.other

section Moves

variable {x : Side} {gone : Datagram → Prop} {h : Handshake HS} {d : Datagram} {t : TAI64N}

theorem Moves.about_other (moves : Moves link x gone s next) :
    next.about link x.other = s.about link x.other := by
  rw [about, about, moves.other]

theorem Initiating.other (moves : Moves link x gone s next) (acquainted : start.Acquainted c link)
    (initiating : Initiating c link s x.other h d t) (there : ¬ gone d)
    (newer : t.newer (next.about link x).lastHandshake = true) : Initiating c link next x.other h d t where
  member := (moves.stays d initiating.member).resolve_right there
  target := initiating.target
  initiation := initiating.initiation
  newer := by rwa [Side.other_other]
  newest e member target apart := by
    rcases moves.sent e member with old | ⟨_, aimed⟩
    · exact initiating.newest e old target apart
    · rw [Side.other_other] at target
      exact absurd (aimed.symm.trans target) (acquainted.apart_other x)

theorem Responding.other (moves : Moves link x gone s next) (acquainted : start.Acquainted c link)
    (responding : Responding c link s x.other h d) : Responding c link next x.other h d where
  member := (moves.stays d responding.member).resolve_right fun taken =>
    acquainted.apart_other x (responding.target.symm.trans (moves.mine d taken))
  target := responding.target
  answer := responding.answer

theorem Initiating.own (moves : Moves link x gone s next) (acquainted : start.Acquainted c link)
    (initiating : Initiating c link s x h d t)
    (silent : ∀ e ∈ next.inFlight, e ∈ s.inFlight ∨ e.bytes.getD 0 0 ≠ 1) :
    Initiating c link next x h d t where
  member := (moves.stays d initiating.member).resolve_right fun taken =>
    acquainted.apart_other x (initiating.target.symm.trans (moves.mine d taken))
  target := initiating.target
  initiation := initiating.initiation
  newer := by
    rw [moves.about_other]
    exact initiating.newer
  newest e member target apart index u hs initiation := by
    rcases silent e member with old | other
    · exact initiating.newest e old target apart index u hs initiation
    · exact absurd initiation.type other

theorem Underway.own (moves : Moves link x gone s next) (acquainted : start.Acquainted c link)
    (underway : Underway c link s x h)
    (silent : ∀ e ∈ next.inFlight, e ∈ s.inFlight ∨ e.bytes.getD 0 0 ≠ 1)
    (there : ∀ d, gone d → ¬ Responding c link s x h d)
    (entry : (next.wg x).registry.get h.selfId = some (link.peer x))
    (kept : h.selfId ∉ (next.wg x).deferred) : Underway c link next x h where
  entry := entry
  kept := kept
  message := by
    obtain ⟨d, t, initiating⟩ | ⟨d, responding⟩ := underway.message
    · exact .inl ⟨d, t, initiating.own moves acquainted silent⟩
    · refine .inr ⟨d, ?_, responding.target, responding.answer⟩
      exact (moves.stays d responding.member).resolve_right fun taken => there d taken responding

/-- What the other side waits for stays under way, unless the side has taken its initiation. -/
theorem Underway.other (moves : Moves link x gone s next) (acquainted : start.Acquainted c link)
    (underway : Underway c link s x.other h)
    (initiation : ∀ d t, Initiating c link s x.other h d t →
      Initiating c link next x.other h d t ∨ ∃ d, Responding c link next x.other h d) :
    Underway c link next x.other h where
  entry := by
    rw [moves.other]
    exact underway.entry
  kept := by
    rw [moves.other]
    exact underway.kept
  message := by
    obtain ⟨d, t, initiating⟩ | ⟨d, responding⟩ := underway.message
    · exact (initiation d t initiating).imp_left fun initiating => ⟨d, t, initiating⟩
    · exact .inr ⟨d, responding.other moves acquainted⟩

/-- One side's move keeps everything if it does so for that side, for what the other side waits for,
and if someone stays engaged. -/
theorem Sound.of_moves (sound : Sound c link start s) (moves : Moves link x gone s next)
    (knows : Knows c link x (next.wg x))
    (honest : ∀ e ∈ next.inFlight, e ∈ s.inFlight ∨
      (e.bytes.getD 0 0 = 1 → ∃ index t hs, InitiationFrom c link x e.bytes index t hs))
    (own : ∀ h, (next.about link x).handshake = some h →
      (next.about link x).handshakeResendScope.isSome = true ∨ Underway c link next x h)
    (others : ∀ h, (s.about link x.other).handshake = some h → Underway c link s x.other h →
      (s.about link x.other).handshakeResendScope.isSome = true ∨ Underway c link next x.other h)
    (engaged : (∃ y, (next.about link y).lastHandshake ≠ (start.about link y).lastHandshake) →
      ∃ y, (next.about link y).Engaged) : Sound c link start next where
  knows y := by
    rcases Side.eq_or_other x y with rfl | rfl
    · exact knows
    · rw [moves.other]
      exact sound.knows x.other
  honest e member := by
    rcases moves.sent e member with old | ⟨source, target⟩
    · exact sound.honest e old
    · rcases honest e member with old | made
      · exact sound.honest e old
      · exact ⟨x, source, target, made⟩
  resent y h pending := by
    rcases Side.eq_or_other x y with rfl | rfl
    · exact own h pending
    · rw [moves.about_other] at pending ⊢
      rcases sound.resent x.other h pending with runs | underway
      · exact .inl runs
      · exact others h pending underway
  engaged := engaged

end Moves

theorem mem_datagrams {source : SocketAddrV6} {outputs : List Output} {e : Datagram} :
    e ∈ datagrams source outputs ↔
      ∃ buf target, Output.sendTo buf target ∈ outputs ∧ e = ⟨source, target, buf⟩ := by
  rw [datagrams, List.mem_filterMap]
  refine ⟨?_, ?_⟩
  · rintro ⟨output, member, made⟩
    cases output with
    | sendTo buf target => exact ⟨buf, target, member, (Option.some.inj made).symm⟩
    | tunWrite _ => cases made
  · rintro ⟨buf, target, member, rfl⟩
    exact ⟨_, member, rfl⟩

/-- All that is sent goes to the other side. -/
def Aimed (link : Link) (x : Side) (outputs : List Output) : Prop :=
  ∀ buf target, Output.sendTo buf target ∈ outputs → target = link.addr x.other

section Steps

variable {x : Side} {env : Env} {wg : WgState HS} {outputs : List Output}

theorem about_move : (s.move link x wg outputs).about link x = wg.peers (link.peer x) := by
  simp [about, move]

theorem wg_move : (s.move link x wg outputs).wg x = wg := by
  simp [move]

theorem mem_move {e : Datagram} : e ∈ (s.move link x wg outputs).inFlight ↔
    e ∈ s.inFlight ∨ e ∈ datagrams (link.addr x) outputs := List.mem_append

theorem sent_aimed (aimed : Aimed link x outputs) {e : Datagram}
    (sent : e ∈ datagrams (link.addr x) outputs) :
    e.source = link.addr x ∧ e.target = link.addr x.other := by
  obtain ⟨buf, target, member, rfl⟩ := mem_datagrams.mp sent
  exact ⟨rfl, aimed buf target member⟩

theorem move_moves (s : Network HS) (wg : WgState HS) (aimed : Aimed link x outputs) :
    Moves link x (fun _ => False) s (s.move link x wg outputs) where
  other := Function.update_of_ne (Side.other_ne x) ..
  stays _ member := .inl (mem_move.mpr (.inl member))
  mine _ taken := taken.elim
  sent _ member := (mem_move.mp member).imp_right (sent_aimed aimed)

theorem take_moves (s : Network HS) {d : Datagram} (mine : d.target = link.addr x) (wg : WgState HS)
    (aimed : Aimed link x outputs) : Moves link x (· = d) s ((s.take d).move link x wg outputs) where
  other := Function.update_of_ne (Side.other_ne x) ..
  stays e member := by
    by_cases taken : e = d
    · exact .inr taken
    · exact .inl (mem_move.mpr (.inl ((List.mem_erase_of_ne taken).mpr member)))
  mine _ taken := taken ▸ mine
  sent _ member := (mem_move.mp member).imp List.mem_of_mem_erase (sent_aimed aimed)

theorem Knows.of_update {wg next : WgState HS} {q : PeerState HS} (knows : Knows c link x wg)
    (info : next.info = wg.info) (listed : next.pubkeyMap = wg.pubkeyMap)
    (self : next.peers (link.peer x) = q) (config : q.info = (wg.peers (link.peer x)).info)
    (entries : ∀ id ref, next.registry.get id = some ref → ref = link.peer x)
    (initiator : ∀ h, q.handshake = some h → c.getIsInitiator h.hs = true)
    (unconfirmed : ∀ t ∈ q.transports.val, t.getShouldSend = t.isInitiator) : Knows c link x next where
  key := info ▸ knows.key
  listed := listed ▸ knows.listed
  publicKey := by
    rw [self, config]
    exact knows.publicKey
  psk := by
    rw [self, config]
    exact knows.psk
  endpoint := by
    rw [self, config]
    exact knows.endpoint
  entries := entries
  initiator := by
    rw [self]
    exact initiator
  unconfirmed := by
    rw [self]
    exact unconfirmed

theorem roamed_info {p : PeerState HS} {addr : SocketAddrV6} (there : p.info.endpoint = some addr) :
    (p.roamed addr).info = p.info := by
  simp only [PeerState.roamed, ← there, ite_self]

/-- A step that accepts nothing and takes nothing that the other side waits for. -/
theorem Sound.of_still {gone : Datagram → Prop} (sound : Sound c link start s)
    (acquainted : start.Acquainted c link) (moves : Moves link x gone s next)
    (knows : Knows c link x (next.wg x))
    (honest : ∀ e ∈ next.inFlight, e ∈ s.inFlight ∨
      (e.bytes.getD 0 0 = 1 → ∃ index t hs, InitiationFrom c link x e.bytes index t hs))
    (own : ∀ h, (next.about link x).handshake = some h →
      (next.about link x).handshakeResendScope.isSome = true ∨ Underway c link next x h)
    (missed : ∀ h d t, gone d → (s.about link x.other).handshake = some h →
      Initiating c link s x.other h d t → (s.about link x.other).handshakeResendScope.isSome = true)
    (last : (next.about link x).lastHandshake = (s.about link x).lastHandshake)
    (keeps : (s.about link x).Engaged → (next.about link x).Engaged) : Sound c link start next := by
  refine sound.of_moves moves knows honest own (fun h pending underway => ?_) fun changed => ?_
  · by_cases runs : (s.about link x.other).handshakeResendScope.isSome = true
    · exact .inl runs
    · refine .inr (underway.other moves acquainted fun d t initiating => .inl ?_)
      refine initiating.other moves acquainted (fun taken => runs (missed h d t taken pending initiating)) ?_
      have newer := initiating.newer
      rw [Side.other_other] at newer
      rwa [last]
  · have before : ∃ y, (s.about link y).lastHandshake ≠ (start.about link y).lastHandshake := by
      obtain ⟨y, differs⟩ := changed
      refine ⟨y, ?_⟩
      rcases Side.eq_or_other x y with rfl | rfl
      · rwa [← last]
      · rwa [← moves.about_other]
    obtain ⟨y, engaged⟩ := sound.engaged before
    refine ⟨y, ?_⟩
    rcases Side.eq_or_other x y with rfl | rfl
    · exact keeps engaged
    · rwa [moves.about_other]

theorem aimed_nil : Aimed link x [] := fun _ _ member => by cases member

theorem Sound.doHandshake (sound : Sound c link start s) (acquainted : start.Acquainted c link) (x : Side)
    (env : Env) : Sound c link start (s.move link x ((s.wg x).doHandshake env (link.peer x)) []) := by
  have knows := sound.knows x
  obtain ⟨q, loops, nextScope, starts, info, last, handshake, runs, transports⟩ :=
    WgState.doHandshake_starts (s.wg x) env knows.endpoint
  rw [starts]
  have engaged : (s.move link x { s.wg x with
      peers := Function.update (s.wg x).peers (link.peer x) q, loops, nextScope } []).about link x = q := by
    rw [about_move]
    exact Function.update_self ..
  refine sound.of_still acquainted (move_moves s _ aimed_nil) ?_ ?_ ?_ ?_ ?_ ?_
  · rw [wg_move]
    refine knows.of_update rfl rfl (Function.update_self ..) info knows.entries ?_ ?_
    · rw [handshake]
      exact knows.initiator
    · rw [transports]
      exact knows.unconfirmed
  · exact fun e member => .inl ((mem_move.mp member).resolve_right List.not_mem_nil)
  · intro h _
    rw [engaged]
    exact .inl runs
  · exact fun _ _ _ taken => taken.elim
  · rw [engaged]
    exact last
  · intro _
    rw [engaged]
    exact .inl runs

theorem Sound.own_stays {gone : Datagram → Prop} (sound : Sound c link start s)
    (acquainted : start.Acquainted c link) (moves : Moves link x gone s next)
    (handshake : (next.about link x).handshake = (s.about link x).handshake)
    (scope : (next.about link x).handshakeResendScope = (s.about link x).handshakeResendScope)
    (silent : ∀ e ∈ next.inFlight, e ∈ s.inFlight ∨ e.bytes.getD 0 0 ≠ 1)
    (missed : ∀ h d, gone d → (s.about link x).handshake = some h → Responding c link s x h d →
      (s.about link x).handshakeResendScope.isSome = true)
    (entries : ∀ id, (s.about link x).handshakeResendScope = none →
      (s.wg x).registry.get id = some (link.peer x) → id ∉ (s.wg x).deferred →
      (next.wg x).registry.get id = some (link.peer x) ∧ id ∉ (next.wg x).deferred) :
    ∀ h, (next.about link x).handshake = some h →
      (next.about link x).handshakeResendScope.isSome = true ∨ Underway c link next x h := by
  intro h pending
  rw [handshake] at pending
  rw [scope]
  rcases sound.resent x h pending with runs | underway
  · exact .inl runs
  by_cases runs : (s.about link x).handshakeResendScope.isSome = true
  · exact .inl runs
  · obtain ⟨entry, kept⟩ := entries h.selfId (by simpa using runs) underway.entry underway.kept
    exact .inr (underway.own moves acquainted silent (fun d taken responding =>
      runs (missed h d taken pending responding)) entry kept)

theorem Sound.unmoved (sound : Sound c link start s) (acquainted : start.Acquainted c link)
    (info : wg.info = (s.wg x).info) (listed : wg.pubkeyMap = (s.wg x).pubkeyMap)
    (peers : wg.peers = (s.wg x).peers)
    (owned : ∀ id ref, wg.registry.get id = some ref → ref = link.peer x)
    (entries : ∀ id, (s.about link x).handshakeResendScope = none →
      (s.wg x).registry.get id = some (link.peer x) → id ∉ (s.wg x).deferred →
      wg.registry.get id = some (link.peer x) ∧ id ∉ wg.deferred) :
    Sound c link start (s.move link x wg []) := by
  have knows := sound.knows x
  have aimed : Aimed link x [] := aimed_nil
  have moves := move_moves s wg aimed
  have same : (s.move link x wg []).about link x = s.about link x := by
    rw [about_move, peers]
    rfl
  have sent (e : Datagram) (member : e ∈ (s.move link x wg []).inFlight) : e ∈ s.inFlight :=
    (mem_move.mp member).resolve_right List.not_mem_nil
  refine sound.of_still acquainted moves ?_ (fun e member => .inl (sent e member)) ?_
    (fun _ _ _ taken => taken.elim) (by rw [same]) (by rw [same]; exact id)
  · rw [wg_move]
    exact knows.of_update info listed (congrFun peers _) rfl owned knows.initiator knows.unconfirmed
  · refine sound.own_stays acquainted moves (by rw [same]) (by rw [same])
      (fun e member => .inl (sent e member)) (fun _ _ taken => taken.elim) ?_
    rw [wg_move]
    exact entries

theorem Sound.cancelLoop (sound : Sound c link start s) (acquainted : start.Acquainted c link) (x : Side)
    (loop : ResendLoop) :
    Sound c link start (s.move link x { s.wg x with loops := (s.wg x).loops.erase loop } []) :=
  sound.unmoved acquainted rfl rfl rfl (sound.knows x).entries fun _ _ entry kept => ⟨entry, kept⟩

theorem Sound.removeDeferred (sound : Sound c link start s) (acquainted : start.Acquainted c link)
    (x : Side) {id : WgId} (member : id ∈ (s.wg x).deferred) :
    Sound c link start (s.move link x ((s.wg x).removeDeferred id) []) := by
  have registry := WgState.removeDeferred_registry (s.wg x) id
  refine sound.unmoved acquainted rfl rfl rfl (fun j ref entry => ?_) fun j _ entry kept => ⟨?_, ?_⟩
  · rw [registry, Registry.get_settle] at entry
    split_ifs at entry
    exact (sound.knows x).entries j ref entry
  · rw [registry, Registry.get_settle, if_neg (by rintro rfl; exact kept member)]
    exact entry
  · exact fun later => kept (List.mem_of_mem_erase later)

theorem Sound.fresh {id : WgId} (sound : Sound c link start s)
    (idle : (s.about link x).handshakeResendScope = none)
    (fresh : (s.wg x).idMap.get id = none) : id ∉ (s.about link x).handshakeIds := by
  intro member
  cases pending : (s.about link x).handshake with
  | none =>
    rw [PeerState.handshakeIds, pending] at member
    cases member
  | some h =>
    rw [PeerState.handshakeIds, pending] at member
    obtain rfl := List.mem_singleton.mp member
    rcases sound.resent x h pending with runs | underway
    · rw [idle] at runs
      cases runs
    · cases fresh.symm.trans underway.entry

theorem Sound.resend (noise : Noise c) (roles : KeepsRoles c) (sound : Sound c link start s)
    (acquainted : start.Acquainted c link) {loop : ResendLoop}
    (late : s.Late c link ⟨x, .resend loop, env⟩) (mine : loop.peer = link.peer x)
    (seconds : env.time.secs < 2 ^ 64) (nanos : env.time.nanos < 10 ^ 9)
    (ok : (s.wg x).resendIteration c env loop = .ok (wg, outputs)) :
    Sound c link start (s.move link x wg outputs) := by
  have knows := sound.knows x
  have late := late loop rfl
  obtain ⟨info, listed, ⟨rfl, peers, registry⟩ | ⟨addr, msg, hs, cookie, q, endpoint, initiated, rfl, peers,
    config, last, handshake, scope, transports, registry⟩⟩ := WgState.resendIteration_sends c ok
  · refine sound.unmoved acquainted info listed peers (fun id ref entry => ?_) fun id idle entry kept => ?_
    · rcases registry with same | drawn
      · exact knows.entries id ref (same ▸ entry)
      · rw [drawn] at entry
        rcases Registry.get_of_insert (Registry.get_of_dropAll entry) with old | new
        · exact knows.entries id ref old
        · exact new.trans mine
    · rcases registry with same | drawn
      · have later : wg.deferred = (s.wg x).deferred := congrArg Registry.deferred same
        exact ⟨same ▸ entry, later ▸ kept⟩
      · obtain ⟨free, _, _⟩ := late idle
        have other : id ≠ env.id := by
          rintro rfl
          cases free.symm.trans entry
        obtain ⟨_, _, _, get⟩ := Registry.dropAll_spec ((s.wg x).registry.insert env.id loop.peer)
          env.idMapFree [env.id]
        have later : wg.deferred = _ := (congrArg Registry.deferred drawn).trans
          (Registry.deferred_dropAll ..)
        refine ⟨?_, ?_⟩
        · rw [drawn, get, if_neg (by simp [other]), Registry.get_insert, if_neg other]
          exact entry
        · rw [later]
          simp only [List.mem_append, List.mem_filter, List.mem_singleton, other, false_and, or_false]
          exact kept
  rw [mine] at endpoint initiated peers config last scope transports registry
  obtain rfl : addr = link.addr x.other := Option.some.inj (endpoint.symm.trans knows.endpoint)
  have aimed : Aimed link x [.sendTo (cookieSign c msg cookie).val (link.addr x.other)] :=
    fun _ _ member => (Output.sendTo.inj (List.mem_singleton.mp member)).2
  have moves := move_moves s wg aimed
  have sent (e : Datagram) (member : e ∈ (s.move link x wg
      [.sendTo (cookieSign c msg cookie).val (link.addr x.other)]).inFlight) :
      e ∈ s.inFlight ∨ e = ⟨link.addr x, link.addr x.other, (cookieSign c msg cookie).val⟩ :=
    (mem_move.mp member).imp_right List.mem_singleton.mp
  have initiation : InitiationFrom c link x (cookieSign c msg cookie).val env.id
      (truncateTimestamp env.time) hs := by
    have made := Initiation.of_initiate initiated knows.publicKey seconds nanos cookie
    rwa [knows.key, knows.psk] at made
  have self : (s.move link x wg [.sendTo (cookieSign c msg cookie).val (link.addr x.other)]).about link x =
      q := by
    rw [about_move, peers]
    exact Function.update_self ..
  refine sound.of_still acquainted moves ?_ (fun e member => ?_) (fun h pending => ?_)
    (fun _ _ _ taken => taken.elim) ?_ fun _ => ?_
  · rw [wg_move]
    refine knows.of_update info listed (by rw [peers]; exact Function.update_self ..) config
      (fun id ref entry => ?_) (fun h pending => ?_) ?_
    · rw [registry] at entry
      rcases Registry.get_of_insert (Registry.get_of_dropAll entry) with old | new
      · exact knows.entries id ref old
      · exact new
    · obtain rfl := Option.some.inj (handshake.symm.trans pending)
      exact roles.initiated c initiated
    · rw [transports]
      exact knows.unconfirmed
  · refine (sent e member).imp_right fun new _ => ?_
    rw [new]
    exact ⟨_, _, _, initiation⟩
  · rw [self] at pending ⊢
    rw [scope]
    by_cases runs : (s.about link x).handshakeResendScope.isSome = true
    · exact .inl runs
    have idle : (s.about link x).handshakeResendScope = none := by simpa using runs
    obtain ⟨free, kept, newer, newest⟩ := late idle
    have other := sound.fresh idle free
    obtain rfl := Option.some.inj (handshake.symm.trans pending)
    obtain ⟨_, _, _, get⟩ := Registry.dropAll_spec ((s.wg x).registry.insert env.id (link.peer x))
      env.idMapFree (s.about link x).handshakeIds
    have later : wg.deferred = _ := (congrArg Registry.deferred registry).trans
      (Registry.deferred_dropAll ..)
    refine .inr ⟨?_, ?_, .inl ⟨⟨link.addr x, link.addr x.other, (cookieSign c msg cookie).val⟩,
      truncateTimestamp env.time, mem_move.mpr (.inr List.mem_cons_self), rfl, initiation, ?_, ?_⟩⟩
    · rw [wg_move, registry]
      refine (get env.id).trans ?_
      rw [if_neg fun gone => other gone.1, Registry.get_insert, if_pos rfl]
    · rw [wg_move, later]
      intro member
      rcases List.mem_append.mp member with old | new
      · exact kept old
      · exact other (List.mem_filter.mp new).1
    · rw [moves.about_other]
      exact newer
    · intro e member target apart index u hs' initiation
      have old := (sent e member).resolve_right apart
      obtain ⟨opened, opens, _⟩ := initiation.opens noise (sound.knows x.other).key
      exact newest e old target _ opens
  · rw [self]
    exact last
  · refine .inr (.inl ?_)
    rw [self, handshake]
    rfl

theorem addr_inj (acquainted : start.Acquainted c link) {x y : Side} (same : link.addr y = link.addr x) :
    y = x := by
  rcases Side.eq_or_other x y with here | there
  · exact here
  · subst there
    exact absurd same (acquainted.apart_other x)

theorem Sound.sender (sound : Sound c link start s) (acquainted : start.Acquainted c link)
    (member : d ∈ s.inFlight) (mine : d.target = link.addr x) : d.source = link.addr x.other ∧
      (d.bytes.getD 0 0 = 1 → ∃ index t hs, InitiationFrom c link x.other d.bytes index t hs) := by
  obtain ⟨y, source, target, made⟩ := sound.honest d member
  obtain rfl : y.other = x := addr_inj acquainted (target.symm.trans mine)
  rw [Side.other_other]
  exact ⟨source, made⟩

theorem cookieReply_type {wg : WgState HS} {addr : SocketAddrV6} {msg : U8Array 64}
    (reply : wg.IsCookieReply c env addr msg) : msg.val.getD 0 0 = 3 := by
  obtain ⟨_, _, rfl⟩ := reply
  rfl

theorem Sound.refuse (sound : Sound c link start s) (acquainted : start.Acquainted c link)
    (member : d ∈ s.inFlight) (mine : d.target = link.addr x) (noEffect : (s.wg x).NoEffect wg)
    (harmless : (s.wg x).Harmless c env d.bytes d.source outputs)
    (initiation : ∀ h t, (s.about link x.other).handshake = some h → Initiating c link s x.other h d t →
      (s.about link x.other).handshakeResendScope.isSome = true)
    (response : ∀ h, (s.about link x).handshake = some h → Responding c link s x h d →
      (s.about link x).handshakeResendScope.isSome = true) :
    Sound c link start ((s.take d).move link x wg outputs) := by
  have knows := sound.knows x
  obtain ⟨source, _⟩ := sound.sender acquainted member mine
  have aimed : Aimed link x outputs := by
    intro buf target sends
    rcases harmless with rfl | ⟨msg, rfl, _⟩
    · cases sends
    · exact (Output.sendTo.inj (List.mem_singleton.mp sends)).2.trans source
  have moves := take_moves s mine wg aimed
  have silent (e : Datagram) (there : e ∈ ((s.take d).move link x wg outputs).inFlight) :
      e ∈ s.inFlight ∨ e.bytes.getD 0 0 ≠ 1 := by
    rcases mem_move.mp there with old | new
    · exact .inl (List.mem_of_mem_erase old)
    · refine .inr ?_
      obtain ⟨buf, target, sends, rfl⟩ := mem_datagrams.mp new
      rcases harmless with rfl | ⟨msg, rfl, reply, _⟩
      · cases sends
      · rw [(Output.sendTo.inj (List.mem_singleton.mp sends)).1, cookieReply_type reply]
        decide
  obtain ⟨rxBytes, loadMonitor, rfl⟩ := noEffect
  have self : ((s.take d).move link x { s.wg x with
      peers := fun ref => { (s.wg x).peers ref with rxBytes := rxBytes ref }, loadMonitor } outputs).about
        link x = { s.about link x with rxBytes := rxBytes (link.peer x) } := by
    rw [about_move]
    rfl
  refine sound.of_still acquainted moves ?_ (fun e there => ?_) ?_ (fun h e t taken => ?_) ?_ ?_
  · rw [wg_move]
    exact knows.of_update rfl rfl rfl rfl knows.entries knows.initiator knows.unconfirmed
  · exact (silent e there).imp_right fun other first => absurd first other
  · refine sound.own_stays acquainted moves (by rw [self]) (by rw [self]) silent (fun h e taken => ?_) ?_
    · subst taken
      exact response h
    · rw [wg_move]
      exact fun _ _ entry kept => ⟨entry, kept⟩
  · subst taken
    exact initiation h t
  · rw [self]
  · rw [self]
    exact id

/-- An initiation that is not accepted is not the one that the other side waits for, unless it is put off. -/
theorem Sound.refuseInit (noise : Noise c) (sound : Sound c link start s)
    (acquainted : start.Acquainted c link) (served : s.Served c link ⟨x, .handshakeInit d, env⟩)
    (member : d ∈ s.inFlight) (mine : d.target = link.addr x) (type : d.bytes.getD 0 0 = 1)
    (refused : ∀ r rs peer, ¬ (s.wg x).AcceptsInit c env d.bytes d.source r rs peer)
    (ok : (s.wg x).udpProcessHandshakeInit c env d.bytes d.source = .ok (wg, outputs)) :
    Sound c link start ((s.take d).move link x wg outputs) := by
  have knows := sound.knows x
  obtain ⟨index, t, hs, made⟩ := (sound.sender acquainted member mine).2 type
  rw [InitiationFrom, Side.other_other] at made
  obtain ⟨opened, opens, key, _⟩ := made.opens noise knows.key
  obtain ⟨next, sent, refuses, noEffect, harmless⟩ := WgState.init_refused c refused fun r _ _ processed => by
    obtain rfl := Option.some.inj (Except.ok.inj (opens.symm.trans processed))
    rw [key]
    rfl
  obtain ⟨rfl, rfl⟩ := Prod.mk.inj (Except.ok.inj (ok.symm.trans refuses))
  refine sound.refuse acquainted member mine noEffect harmless (fun h u pending initiating => ?_)
    fun h _ responding => ?_
  · obtain ⟨next, passes | ⟨msg, putOff⟩⟩ :=
      WgState.checkMessage_genuine c env d.source (by decide) made.length (made.mac1 knows.key)
    · refine absurd ⟨⟨next, passes⟩, opens, key, knows.listed, ?_⟩ (refused _ _ (link.peer x))
      have again := initiating.initiation
      rw [InitiationFrom, Side.other_other] at again
      obtain ⟨_, same, _⟩ := again.opens noise knows.key
      have newer := initiating.newer
      rw [Side.other_other] at newer
      obtain ⟨_, time, _⟩ := InitProcessResult.mk.inj (Option.some.inj (Except.ok.inj (opens.symm.trans same)))
      exact time ▸ newer
    · exact served.1 d msg next rfl (by rw [pending]; rfl) putOff
  · cases type.symm.trans responding.answer.type

theorem response_type {r : InitProcessResult HS} {selfId : WgId} {ephemeral : X25519Key}
    {response : U8Array HANDSHAKE_RESP_LEN} {hs : HS}
    (responded : responde c r selfId ephemeral = .ok (some (response, hs))) (cookie : Option Cookie) :
    (cookieSign c response cookie).val.getD 0 0 = 2 := by
  obtain ⟨noise, rs, _, _, built⟩ := responde_eq c responded
  obtain ⟨mac2, signed⟩ := cookieSign_eq c (by simp) built cookie
  rw [signed]
  simp [withMac1]

theorem Sound.opens (noise : Noise c) (sound : Sound c link start s) (acquainted : start.Acquainted c link)
    (member : d ∈ s.inFlight) (mine : d.target = link.addr x) (type : d.bytes.getD 0 0 = 1)
    {r : InitProcessResult HS} (accepts : (s.wg x).AcceptsInit c env d.bytes d.source r rs peer) :
    peer = link.peer x ∧ d.source = link.addr x.other ∧
      ∃ hs, InitiationFrom c link x.other d.bytes r.peerId r.timestamp hs ∧
        Read c (link.key x.other) (link.key x) (link.psk.getD (zeros 32)) hs r.handshakeState := by
  have knows := sound.knows x
  obtain ⟨source, made⟩ := sound.sender acquainted member mine
  obtain ⟨index, t, hs, made⟩ := made type
  have own := made
  rw [InitiationFrom, Side.other_other] at own
  obtain ⟨opened, opens, key, read⟩ := own.opens noise knows.key
  obtain rfl : ⟨index, t, opened⟩ = r := Option.some.inj (Except.ok.inj (opens.symm.trans accepts.opened))
  obtain rfl := Option.some.inj (key.symm.trans accepts.key)
  exact ⟨Option.some.inj (accepts.found.symm.trans knows.listed), source, hs, made, read⟩

/-- An accepted initiation is answered, so what the other side waits for is still under way. -/
theorem Sound.acceptInit (noise : Noise c) (replies : Replies c) (roles : KeepsRoles c)
    (sound : Sound c link start s) (acquainted : start.Acquainted c link)
    (answered : s.Answered c link ⟨x, .handshakeInit d, env⟩) (member : d ∈ s.inFlight)
    (mine : d.target = link.addr x) (type : d.bytes.getD 0 0 = 1) {r : InitProcessResult HS}
    (accepts : (s.wg x).AcceptsInit c env d.bytes d.source r rs peer)
    (ok : (s.wg x).udpProcessHandshakeInit c env d.bytes d.source = .ok (wg, outputs)) :
    Sound c link start ((s.take d).move link x wg outputs) := by
  have knows := sound.knows x
  obtain ⟨rfl, source, hs, taken, read⟩ := sound.opens noise acquainted member mine type accepts
  have answerable : (c.writeMessage (c.pushPsk r.handshakeState
      (((s.wg x).peers (link.peer x)).info.psk.getD (zeros 32))) env.ephemeral [] 48).isSome = true :=
    replies.writesSecond read
  obtain ⟨⟨second, written⟩, writes⟩ := Option.isSome_iff_exists.mp answerable
  obtain ⟨⟨response, cookie, q, responded, rfl, info, listed, peers, config, last, handshake, scope,
    transports⟩, dropped, registry⟩ := WgState.init_answers c accepts writes ok
  rw [source] at config ⊢
  have config : q.info = ((s.wg x).peers (link.peer x)).info := config.trans (roamed_info knows.endpoint)
  have aimed : Aimed link x [.sendTo (cookieSign c response cookie).val (link.addr x.other)] :=
    fun _ _ sends => (Output.sendTo.inj (List.mem_singleton.mp sends)).2
  have moves := take_moves s mine wg aimed
  have sent (e : Datagram) (there : e ∈ ((s.take d).move link x wg
      [.sendTo (cookieSign c response cookie).val (link.addr x.other)]).inFlight) :
      e ∈ s.inFlight ∨ e = ⟨link.addr x, link.addr x.other, (cookieSign c response cookie).val⟩ :=
    (mem_move.mp there).imp List.mem_of_mem_erase List.mem_singleton.mp
  have self : ((s.take d).move link x wg
      [.sendTo (cookieSign c response cookie).val (link.addr x.other)]).about link x = q := by
    rw [about_move, peers]
    exact Function.update_self ..
  obtain ⟨kept, sublist, pushed⟩ := ((s.wg x).peers (link.peer x)).transports.pushFront_val
    (Transport.newFromHs c env.now env.id r.peerId written)
  have role : c.getIsInitiator written = false :=
    (roles.write writes).trans (roles.pushPsk.trans (roles.opened accepts.opened))
  refine sound.of_moves moves ?_ (fun e there => ?_) (fun h pending => ?_) (fun h pending underway => ?_)
    fun _ => ?_
  · rw [wg_move]
    refine knows.of_update info listed (by rw [peers]; exact Function.update_self ..) config
      (fun id ref entry => ?_) (fun h pending => ?_) fun u session => ?_
    · rw [registry] at entry
      rcases Registry.get_of_insert entry with old | new
      · exact knows.entries id ref (Registry.get_of_dropAll old)
      · exact new
    · cases handshake.symm.trans pending
    · rw [transports] at session
      rcases List.mem_cons.mp (pushed ▸ session) with rfl | old
      · simp [Transport.getShouldSend, Transport.newFromHs, role]
      · exact knows.unconfirmed u (sublist.subset old)
  · refine (sent e there).imp_right fun new first => ?_
    rw [new, response_type responded] at first
    cases first
  · rw [self] at pending
    cases handshake.symm.trans pending
  · refine .inr (underway.other moves acquainted fun e u initiating => ?_)
    by_cases same : e = d
    · -- The initiation that is waited for is the one that was taken, so this is the answer to it.
      subst same
      have again := initiating.initiation
      rw [InitiationFrom, Side.other_other] at again
      obtain ⟨_, processed, _, reads⟩ := again.opens noise knows.key
      obtain rfl := Option.some.inj (Except.ok.inj (accepts.opened.symm.trans processed))
      refine .inr ⟨⟨link.addr x, link.addr x.other, (cookieSign c response cookie).val⟩,
        mem_move.mpr (.inr List.mem_cons_self), rfl, ?_⟩
      rw [knows.psk] at responded
      exact Answer.of_responde noise reads rfl responded cookie
    · refine .inl (initiating.other moves acquainted same ?_)
      rw [self, last]
      refine initiating.newest d member ?_ (Ne.symm same) _ _ hs taken
      rw [Side.other_other]
      exact mine
  · rcases answered d rfl _ _ accepts with engaged | ⟨u, session, initiator⟩
    · refine ⟨x.other, ?_⟩
      rwa [moves.about_other]
    · refine ⟨x, .inr (.inr ⟨u, ?_, initiator⟩)⟩
      rw [self, transports]
      exact ArrayVec.mem_pushFront_of_mem_take session

theorem Sound.refuseResp (sound : Sound c link start s) (acquainted : start.Acquainted c link)
    (served : s.Served c link ⟨x, .handshakeResp d, env⟩) (member : d ∈ s.inFlight)
    (mine : d.target = link.addr x) (type : d.bytes.getD 0 0 = 2)
    (refused : ∀ selfId peer, ¬ (s.wg x).AcceptsResp c env d.bytes d.source selfId peer)
    (ok : (s.wg x).udpProcessHandshakeResp c env d.bytes d.source = .ok (wg, outputs)) :
    Sound c link start ((s.take d).move link x wg outputs) := by
  obtain ⟨next, sent, refuses, noEffect, harmless⟩ := WgState.resp_refused c refused
  obtain ⟨rfl, rfl⟩ := Prod.mk.inj (Except.ok.inj (ok.symm.trans refuses))
  refine sound.refuse acquainted member mine noEffect harmless (fun h u _ initiating => ?_)
    fun h pending responding => ?_
  · cases type.symm.trans initiating.initiation.type
  · rcases sound.resent x h pending with runs | underway
    · exact runs
    have answer := responding.answer
    obtain ⟨next, passes | ⟨msg, putOff⟩⟩ := WgState.checkMessage_genuine c env d.source (by decide)
      answer.length (answer.mac1 (sound.knows x).key)
    · obtain ⟨peerId, last, opens⟩ := answer.opens
      exact absurd ⟨⟨next, passes⟩, answer.index, underway.entry, h, _, pending, rfl, opens⟩
        (refused h.selfId (link.peer x))
    · exact served.2 d msg next rfl (by rw [pending]; rfl) putOff

/-- An accepted response engages its receiver for good. -/
theorem Sound.acceptResp (roles : KeepsRoles c) (sound : Sound c link start s)
    (acquainted : start.Acquainted c link) (member : d ∈ s.inFlight) (mine : d.target = link.addr x)
    (type : d.bytes.getD 0 0 = 2)
    (accepts : (s.wg x).AcceptsResp c env d.bytes d.source selfId peer)
    (ok : (s.wg x).udpProcessHandshakeResp c env d.bytes d.source = .ok (wg, outputs)) :
    Sound c link start ((s.take d).move link x wg outputs) := by
  have knows := sound.knows x
  obtain ⟨source, _⟩ := sound.sender acquainted member mine
  obtain rfl : peer = link.peer x := knows.entries selfId peer accepts.found
  obtain ⟨h, peerId, hs, pending, processed, sends, info, listed, ⟨q, t, kept, peers, config, last, handshake,
    scope, session, sublist, role, should⟩, dropped, registry⟩ := WgState.resp_finishes c accepts ok
  rw [source] at config sends
  have config : q.info = ((s.wg x).peers (link.peer x)).info := config.trans (roamed_info knows.endpoint)
  have aimed : Aimed link x outputs := by
    intro buf target sent
    obtain ⟨_, _, _, same⟩ := sends _ sent
    exact (Output.sendTo.inj same).2
  have moves := take_moves s mine wg aimed
  have silent (e : Datagram) (there : e ∈ ((s.take d).move link x wg outputs).inFlight) :
      e ∈ s.inFlight ∨ e.bytes.getD 0 0 ≠ 1 := by
    rcases mem_move.mp there with old | new
    · exact .inl (List.mem_of_mem_erase old)
    · refine .inr ?_
      obtain ⟨buf, target, sent, rfl⟩ := mem_datagrams.mp new
      obtain ⟨_, _, _, same⟩ := sends _ sent
      rw [(Output.sendTo.inj same).1]
      simp [Transport.sealed]
  have self : ((s.take d).move link x wg outputs).about link x = q := by
    rw [about_move, peers]
    exact Function.update_self ..
  have initiator : c.getIsInitiator hs = true := by
    obtain ⟨_, read⟩ := processResponse_some c processed
    exact (roles.read read).trans (knows.initiator h pending)
  refine sound.of_moves moves ?_ (fun e there => ?_) (fun h pending => ?_) (fun h pending underway => ?_)
    fun _ => ⟨x, .inr (.inr ⟨t, ?_, role.trans initiator⟩)⟩
  · rw [wg_move]
    refine knows.of_update info listed (by rw [peers]; exact Function.update_self ..) config
      (fun id ref entry => ?_) (fun h pending => ?_) fun u member => ?_
    · rw [registry] at entry
      rcases Registry.get_of_insert (Registry.get_of_dropAll entry) with old | new
      · exact knows.entries id ref old
      · exact new
    · cases handshake.symm.trans pending
    · rcases List.mem_cons.mp (session ▸ member) with rfl | old
      · exact should
      · exact knows.unconfirmed u (sublist.subset old)
  · exact (silent e there).imp_right fun other first => absurd first other
  · rw [self] at pending
    cases handshake.symm.trans pending
  · refine .inr (underway.other moves acquainted fun e u initiating => .inl ?_)
    refine initiating.other moves acquainted (fun taken => ?_) ?_
    · subst taken
      cases type.symm.trans initiating.initiation.type
    · have newer := initiating.newer
      rw [Side.other_other] at newer
      rw [self, last]
      exact newer
  · rw [self, session]
    exact List.mem_cons_self

theorem Step.sound (noise : Noise c) (replies : Replies c) (roles : KeepsRoles c)
    (acquainted : start.Acquainted c link) (sound : Sound c link start s) {l : Label}
    (step : s.Step c link l next) (answered : s.Answered c link l) (late : s.Late c link l)
    (served : s.Served c link l) : Sound c link start next := by
  cases step with
  | doHandshake => exact sound.doHandshake acquainted _ _
  | resend member mine seconds nanos ok => exact sound.resend noise roles acquainted late mine seconds nanos ok
  | cancelLoop cancelled => exact sound.cancelLoop acquainted _ _
  | removeDeferred member => exact sound.removeDeferred acquainted _ member
  | @handshakeInit x d env wg outputs member mine type ok =>
    by_cases accepted : ∃ r rs peer, (s.wg x).AcceptsInit c env d.bytes d.source r rs peer
    · obtain ⟨r, rs, peer, accepts⟩ := accepted
      exact sound.acceptInit noise replies roles acquainted answered member mine type accepts ok
    · refine sound.refuseInit noise acquainted served member mine type (fun r rs peer accepts => ?_) ok
      exact accepted ⟨r, rs, peer, accepts⟩
  | @handshakeResp x d env wg outputs member mine type ok =>
    by_cases accepted : ∃ selfId peer, (s.wg x).AcceptsResp c env d.bytes d.source selfId peer
    · obtain ⟨selfId, peer, accepts⟩ := accepted
      exact sound.acceptResp roles acquainted member mine type accepts ok
    · refine sound.refuseResp acquainted served member mine type (fun selfId peer accepts => ?_) ok
      exact accepted ⟨selfId, peer, accepts⟩

/-- Where the condition fails, an initiation is accepted and then neither side has anything left of its
own to wait for or to send on. -/
theorem Step.stuck (noise : Noise c) (replies : Replies c) (roles : KeepsRoles c)
    (acquainted : start.Acquainted c link) (sound : Sound c link start s) {l : Label}
    (step : s.Step c link l next) (unanswered : ¬ s.Answered c link l) :
    (∃ x t, (next.about link x).lastHandshake = some t ∧ t.newer (s.about link x).lastHandshake = true) ∧
      ∀ x, ¬ (next.about link x).Engaged ∧ (next.about link x).findTransportToSend = none := by
  simp only [Answered, not_forall, not_or] at unanswered
  obtain ⟨d, event, r, rs, accepts, idle, noSession⟩ := unanswered
  cases step with
  | doHandshake | resend | cancelLoop | removeDeferred | handshakeResp => cases event
  | @handshakeInit x d' env wg outputs member mine type ok =>
    obtain rfl := Event.handshakeInit.inj event
    dsimp only at accepts idle noSession
    have knows := sound.knows x
    obtain ⟨_, source, hs, taken, read⟩ := sound.opens noise acquainted member mine type accepts
    have answerable : (c.writeMessage (c.pushPsk r.handshakeState
        (((s.wg x).peers (link.peer x)).info.psk.getD (zeros 32))) env.ephemeral [] 48).isSome = true :=
      replies.writesSecond read
    obtain ⟨⟨second, written⟩, writes⟩ := Option.isSome_iff_exists.mp answerable
    obtain ⟨⟨response, cookie, q, _, _, _, _, peers, _, last, handshake, scope, transports⟩, _⟩ :=
      WgState.init_answers c accepts writes ok
    have role : c.getIsInitiator written = false :=
      (roles.write writes).trans (roles.pushPsk.trans (roles.opened accepts.opened))
    have self : ((s.take d').move link x wg outputs).about link x = q := by
      rw [about_move, peers]
      exact Function.update_self ..
    have moved : ((s.take d').move link x wg outputs).about link x.other = s.about link x.other := by
      simp [about, move, take, Side.other_ne]
    have sessions (t : Transport) (session : t ∈ q.transports.val) :
        t.getShouldSend = t.isInitiator ∧ t.isInitiator ≠ true := by
      rw [transports] at session
      rcases ArrayVec.mem_pushFront session with rfl | old
      · simp [Transport.getShouldSend, Transport.newFromHs, role]
      · exact ⟨knows.unconfirmed t (List.mem_of_mem_take old), fun initiator => noSession ⟨t, old, initiator⟩⟩
    refine ⟨⟨x, r.timestamp, by rw [self, last], accepts.newer⟩, fun y => ?_⟩
    rcases Side.eq_or_other x y with rfl | rfl
    · rw [self]
      refine ⟨?_, List.find?_eq_none.mpr fun t session sends => (sessions t session).2 ?_⟩
      · rintro (runs | pending | ⟨t, session, initiator⟩)
        · rw [scope] at runs
          cases runs
        · rw [handshake] at pending
          cases pending
        · exact (sessions t session).2 initiator
      · rwa [← (sessions t session).1]
    · rw [moved]
      refine ⟨idle, List.find?_eq_none.mpr fun t session sends => idle (.inr (.inr ⟨t, session, ?_⟩))⟩
      rwa [← (sound.knows x.other).unconfirmed t session]

end Steps

/-- In every run in which an accepted initiation leaves a handshake that can still be finished, once all
handshake messages have arrived and no loop runs one of the sides may send. Where an accepted initiation
leaves none, neither may. -/
theorem crossing_handshakes_usable (noise : Noise c) (replies : Replies c) (roles : KeepsRoles c)
    {labels : List Label} {last : Network HS} (acquainted : start.Acquainted c link)
    (run : Run (fun s l next => s.Step c link l next ∧ s.Answered c link l ∧ s.Late c link l ∧
      s.Served c link l) start labels last) :
    ((∃ x, (last.about link x).lastHandshake ≠ (start.about link x).lastHandshake) →
      (∀ d ∈ last.inFlight, ¬ d.IsHandshake) → (∀ x, (last.about link x).handshakeResendScope = none) →
      ∃ x, (last.about link x).findTransportToSend.isSome = true) ∧
    ∀ l next, last.Step c link l next → ¬ last.Answered c link l →
      (∃ x t, (next.about link x).lastHandshake = some t ∧
        t.newer (last.about link x).lastHandshake = true) ∧
      ∀ x, ¬ (next.about link x).Engaged ∧ (next.about link x).findTransportToSend = none := by
  have sound : Sound c link start last := run.invariant _
    (fun _ _ _ sound one => one.1.sound noise replies roles acquainted sound one.2.1 one.2.2.1 one.2.2.2)
    (start_sound acquainted)
  refine ⟨sound.usable, fun l next step unanswered => ?_⟩
  exact step.stuck noise replies roles acquainted sound unanswered

inductive Move where
  | doHandshake
  | resend
  | cancelLoop
  | handshakeInit
  | handshakeResp

variable (c link) in
def act (s : Network HS) (x : Side) (env : Env) : Move → Option (Label × Network HS)
  | .doHandshake => some (⟨x, .doHandshake, env⟩, s.move link x ((s.wg x).doHandshake env (link.peer x)) [])
  | .resend => do
    let loop ← (s.wg x).loops.head?
    guard (loop.peer = link.peer x ∧ env.time.secs < 2 ^ 64 ∧ env.time.nanos < 10 ^ 9)
    let (wg, outputs) ← ((s.wg x).resendIteration c env loop).toOption
    return (⟨x, .resend loop, env⟩, s.move link x wg outputs)
  | .cancelLoop => do
    let loop ← (s.wg x).loops.head?
    guard (((s.wg x).peers loop.peer).handshakeResendScope ≠ some loop.scope)
    return (⟨x, .cancelLoop loop, env⟩, s.move link x { s.wg x with loops := (s.wg x).loops.erase loop } [])
  | .handshakeInit => do
    let d ← s.inFlight.find? fun d => d.target = link.addr x ∧ d.bytes.getD 0 0 = 1
    let (wg, outputs) ← ((s.wg x).udpProcessHandshakeInit c env d.bytes d.source).toOption
    return (⟨x, .handshakeInit d, env⟩, (s.take d).move link x wg outputs)
  | .handshakeResp => do
    let d ← s.inFlight.find? fun d => d.target = link.addr x ∧ d.bytes.getD 0 0 = 2
    let (wg, outputs) ← ((s.wg x).udpProcessHandshakeResp c env d.bytes d.source).toOption
    return (⟨x, .handshakeResp d, env⟩, (s.take d).move link x wg outputs)

theorem toOption_eq_some {result : Exec α} {a : α} (some : result.toOption = some a) : result = .ok a := by
  cases result with
  | error => cases some
  | ok => exact congrArg Except.ok (Option.some.inj some)

theorem step_of_act {x : Side} {env : Env} {move : Move} {l : Label}
    (acts : s.act c link x env move = some (l, next)) : s.Step c link l next := by
  cases move with
  | doHandshake =>
    obtain ⟨rfl, rfl⟩ := Prod.mk.inj (Option.some.inj acts)
    exact .doHandshake
  | resend =>
    obtain ⟨loop, head, acts⟩ := Option.bind_eq_some_iff.mp acts
    obtain ⟨_, permitted, acts⟩ := Option.bind_eq_some_iff.mp acts
    obtain ⟨⟨wg, outputs⟩, ok, acts⟩ := Option.bind_eq_some_iff.mp acts
    obtain ⟨rfl, rfl⟩ := Prod.mk.inj (Option.some.inj acts)
    obtain ⟨mine, seconds, nanos⟩ := (Option.guard_eq_some' _).mp permitted
    exact .resend (List.mem_of_head? head) mine seconds nanos (toOption_eq_some ok)
  | cancelLoop =>
    obtain ⟨loop, head, acts⟩ := Option.bind_eq_some_iff.mp acts
    obtain ⟨_, permitted, acts⟩ := Option.bind_eq_some_iff.mp acts
    obtain ⟨rfl, rfl⟩ := Prod.mk.inj (Option.some.inj acts)
    exact .cancelLoop ((Option.guard_eq_some' _).mp permitted)
  | handshakeInit =>
    obtain ⟨d, found, acts⟩ := Option.bind_eq_some_iff.mp acts
    obtain ⟨⟨wg, outputs⟩, ok, acts⟩ := Option.bind_eq_some_iff.mp acts
    obtain ⟨rfl, rfl⟩ := Prod.mk.inj (Option.some.inj acts)
    obtain ⟨mine, type⟩ : d.target = link.addr x ∧ _ := by simpa using List.find?_some found
    exact .handshakeInit (List.mem_of_find?_eq_some found) mine type (toOption_eq_some ok)
  | handshakeResp =>
    obtain ⟨d, found, acts⟩ := Option.bind_eq_some_iff.mp acts
    obtain ⟨⟨wg, outputs⟩, ok, acts⟩ := Option.bind_eq_some_iff.mp acts
    obtain ⟨rfl, rfl⟩ := Prod.mk.inj (Option.some.inj acts)
    obtain ⟨mine, type⟩ : d.target = link.addr x ∧ _ := by simpa using List.find?_some found
    exact .handshakeResp (List.mem_of_find?_eq_some found) mine type (toOption_eq_some ok)

variable (c link) in
def follow (check : Network HS → Label → Bool) (s : Network HS) : List (Side × Env × Move) → Option (Network HS)
  | [] => some s
  | (x, env, move) :: moves => do
    let (l, next) ← s.act c link x env move
    if check s l then next.follow check moves else none

theorem run_of_follow {check : Network HS → Label → Bool} {moves : List (Side × Env × Move)} {last : Network HS}
    (follows : s.follow c link check moves = some last) :
    ∃ labels, Run (fun s l next => s.Step c link l next ∧ check s l = true) s labels last := by
  induction moves generalizing s with
  | nil =>
    obtain rfl := Option.some.inj follows
    exact ⟨[], .nil⟩
  | cons head moves ih =>
    obtain ⟨x, env, move⟩ := head
    obtain ⟨⟨l, next⟩, acts, follows⟩ := Option.bind_eq_some_iff.mp follows
    dsimp only at follows
    split_ifs at follows with passes
    obtain ⟨labels, rest⟩ := ih follows
    exact ⟨l :: labels, .cons ⟨step_of_act acts, passes⟩ rest⟩

def stillResent (link : Link) (s : Network HS) (l : Label) : Bool :=
  match l.event with
  | .handshakeInit _ => (s.about link l.side.other).handshakeResendScope.isSome
  | .handshakeResp _ | .resend _ => (s.about link l.side).handshakeResendScope.isSome
  | _ => true

theorem met_of_stillResent {l : Label} (resent : stillResent link s l = true) :
    s.Answered c link l ∧ s.Late c link l ∧ s.Served c link l := by
  obtain ⟨x, event, env⟩ := l
  refine ⟨?_, ?_, ?_, ?_⟩
  · rintro d rfl r rs _
    exact .inl (.inl resent)
  · rintro loop rfl idle
    simp only [stillResent] at resent
    rw [idle] at resent
    cases resent
  · rintro d msg next rfl _ _
    exact resent
  · rintro d msg next rfl _ _
    exact resent

def sampleLink : Link where
  key
    | .left => fit [1] 32
    | .right => fit [2] 32
  psk := none
  addr
    | .left => ⟨1, 0, 0, 0⟩
    | .right => ⟨2, 0, 0, 0⟩
  peer _ := 0

def sampleSide (x : Side) : WgState SymbolicHs :=
  { (WgState.new ⟨sampleLink.key x, 0, 0⟩ (zeros 32) 1280 0 : WgState SymbolicHs) with
    pubkeyMap := HashMap.insert ∅ (sampleLink.key x.other) 0
    peers := fun _ =>
      { PeerState.new (sampleLink.key x.other) 0 with
        info := ⟨sampleLink.key x.other, none, some (sampleLink.addr x.other), ∅, none, false⟩ }
    nextPeer := 1 }

def sampleNetwork : Network SymbolicHs := ⟨sampleSide, []⟩

theorem sampleNetwork_acquainted : sampleNetwork.Acquainted .symbolic sampleLink where
  apart := by decide
  quiet := rfl
  key _ := rfl
  listed x := (HashMap.get_insert ..).trans (if_pos rfl)
  publicKey _ := rfl
  psk _ := rfl
  endpoint _ := rfl
  handshake _ := rfl
  transports _ := rfl
  idMap x id ref entry := by
    have none : (sampleNetwork.wg x).idMap.get id = none := HashMap.get_empty id
    cases none.symm.trans entry

def drawing (id : UInt8) : Env := { sampleEnv with time := ⟨1, 0⟩, id := fit [id] 4 }

def initiates (x : Side) (id : UInt8) : List (Side × Env × Move) :=
  [(x, drawing id, .doHandshake), (x, drawing id, .resend)]

theorem crossing_handshakes_usable_one : ∃ labels last,
    Run (fun s l next => s.Step .symbolic sampleLink l next ∧ s.Answered .symbolic sampleLink l ∧
      s.Late .symbolic sampleLink l ∧ s.Served .symbolic sampleLink l) sampleNetwork labels last ∧
    (∃ x, (last.about sampleLink x).lastHandshake ≠ (sampleNetwork.about sampleLink x).lastHandshake) ∧
    last.inFlight = [] ∧ ∃ x, (last.about sampleLink x).findTransportToSend.isSome = true := by
  have followed : (sampleNetwork.follow .symbolic sampleLink (stillResent sampleLink) (initiates .left 1 ++
      [(.right, drawing 2, .handshakeInit), (.left, drawing 3, .handshakeResp)])).map (fun s =>
        (s.inFlight, (s.about sampleLink .right).lastHandshake,
          (s.about sampleLink .left).handshakeResendScope, (s.about sampleLink .right).handshakeResendScope)) =
      some ([], some ⟨1, 0⟩, none, none) := by decide +kernel
  obtain ⟨last, follows, seen⟩ := Option.map_eq_some_iff.mp followed
  simp only [Prod.mk.injEq] at seen
  obtain ⟨quiet, last_eq, left, right⟩ := seen
  obtain ⟨labels, run⟩ := run_of_follow follows
  have met : Run (fun s l next => s.Step .symbolic sampleLink l next ∧ s.Answered .symbolic sampleLink l ∧
      s.Late .symbolic sampleLink l ∧ s.Served .symbolic sampleLink l) sampleNetwork labels last :=
    run.mono fun _ _ _ one => ⟨one.1, met_of_stillResent one.2⟩
  have accepted : ∃ x, (last.about sampleLink x).lastHandshake ≠
      (sampleNetwork.about sampleLink x).lastHandshake := ⟨.right, by rw [last_eq]; decide⟩
  refine ⟨labels, last, met, accepted, quiet, (crossing_handshakes_usable Crypto.symbolic_noise
    Crypto.symbolic_replies Crypto.symbolic_roles sampleNetwork_acquainted met).1 accepted ?_ ?_⟩
  · intro d member
    rw [quiet] at member
    cases member
  · rintro (_ | _)
    · exact left
    · exact right

/-- A side has accepted an initiation, but has no loop and cannot send. -/
def waiting (s : Network SymbolicHs) (x : Side) : Bool :=
  decide ((s.about sampleLink x).lastHandshake = some ⟨1, 0⟩) &&
    (s.about sampleLink x).handshakeResendScope.isNone && (s.wg x).loops.isEmpty &&
    (s.about sampleLink x).findTransportToSend.isNone

/-- Both sides start a handshake and accept the other's initiation, so neither finishes its own. -/
theorem crossing_handshakes_unusable : ∃ labels last,
    Run (Step .symbolic sampleLink) sampleNetwork labels last ∧
    (∀ x, (last.about sampleLink x).lastHandshake ≠ (sampleNetwork.about sampleLink x).lastHandshake) ∧
    last.inFlight = [] ∧ ∀ x, (last.about sampleLink x).handshakeResendScope = none ∧ (last.wg x).loops = [] ∧
      (last.about sampleLink x).findTransportToSend = none := by
  have followed : (sampleNetwork.follow .symbolic sampleLink (fun _ _ => true) (initiates .left 1 ++
      initiates .right 2 ++ [(.right, drawing 3, .handshakeInit), (.left, drawing 4, .handshakeInit),
        (.left, drawing 5, .handshakeResp), (.right, drawing 6, .handshakeResp),
        (.left, drawing 7, .cancelLoop), (.right, drawing 8, .cancelLoop)])).map (fun s =>
        s.inFlight.isEmpty && (waiting s .left && waiting s .right)) = some true := by decide +kernel
  obtain ⟨last, follows, seen⟩ := Option.map_eq_some_iff.mp followed
  simp only [Bool.and_eq_true, List.isEmpty_iff] at seen
  obtain ⟨quiet, left, right⟩ := seen
  obtain ⟨labels, run⟩ := run_of_follow follows
  have waits (x : Side) : waiting last x = true := by
    cases x with
    | left => exact left
    | right => exact right
  simp only [waiting, Bool.and_eq_true, decide_eq_true_eq, List.isEmpty_iff, Option.isNone_iff_eq_none] at waits
  refine ⟨labels, last, run.mono fun _ _ _ one => one.1, fun x => ?_, quiet, fun x => ?_⟩
  · rw [(waits x).1.1.1]
    cases x <;> decide
  · exact ⟨(waits x).1.1.2, (waits x).1.2, (waits x).2⟩

end Network

end Titun
