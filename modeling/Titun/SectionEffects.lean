import Titun.CriticalSections
import Titun.Evolution
import Titun.HandshakeAgreement
import Titun.Lib.Registry
import Titun.PeerLife

/-! What each critical section does to the peers, to the id map and to the keys. -/
namespace Titun

variable {HS : Type} (c : Crypto HS)

namespace Transport

/-- What a session was made with; the rest changes over its life. -/
def origin (t : Transport) : Transport :=
  { t with
    shouldHandshake := false
    hasReceived := false
    notTooOld := true
    sendCounter := 0
    recvAr := AntiReplay.new }

theorem origin_newFromHs (now : Instant) (selfId peerId : WgId) (hs : HS) :
    (newFromHs c now selfId peerId hs).origin = newFromHs c now selfId peerId hs := rfl

theorem origin_encrypt (t : Transport) (msg : Bytes) : (t.encrypt c msg).2.origin = t.origin := by
  unfold encrypt
  dsimp only
  split_ifs <;> rfl

theorem origin_run (task : SessionTask) (t : Transport) : (task.run t).origin = t.origin := by
  cases task <;> rfl

end Transport

namespace PeerState

/-- What the sessions of a peer were made with. -/
def sessions (p : PeerState HS) : List Transport := p.transports.val.map Transport.origin

theorem ownedIds_eq (p : PeerState HS) : p.ownedIds = p.handshakeIds ++ p.sessions.map Transport.selfId := by
  rw [sessions, List.map_map]
  rfl

/-- Neither the configuration of a peer changes, except for prefixes that it loses, nor its pending
handshake, nor what its sessions were made with. -/
structure Calm (p q : PeerState HS) : Prop where
  info : ∃ allowedIps ⊆ p.info.allowedIps, q.info = { p.info with allowedIps }
  handshake : q.handshake = p.handshake
  sessions : q.sessions = p.sessions

namespace Calm

variable {p q r : PeerState HS}

theorem of_eq (info : q.info = p.info) (handshake : q.handshake = p.handshake)
    (transports : q.transports = p.transports) : p.Calm q :=
  ⟨⟨p.info.allowedIps, Finset.Subset.refl _, info⟩, handshake, by
    rw [PeerState.sessions, PeerState.sessions, transports]⟩

theorem refl (p : PeerState HS) : p.Calm p := of_eq rfl rfl rfl

theorem trans (first : p.Calm q) (second : q.Calm r) : p.Calm r := by
  obtain ⟨few, fewer, one⟩ := first.info
  obtain ⟨less, lesser, two⟩ := second.info
  rw [one] at two lesser
  exact ⟨⟨less, lesser.trans fewer, two⟩, second.handshake.trans first.handshake,
    second.sessions.trans first.sessions⟩

theorem ownedIds (calm : p.Calm q) : q.ownedIds = p.ownedIds := by
  rw [ownedIds_eq, ownedIds_eq, handshakeIds, calm.handshake, calm.sessions]
  rfl

theorem psk (calm : p.Calm q) : q.info.psk = p.info.psk := by
  obtain ⟨_, _, info⟩ := calm.info
  rw [info]

theorem endpoint (calm : p.Calm q) : q.info.endpoint = p.info.endpoint := by
  obtain ⟨_, _, info⟩ := calm.info
  rw [info]

theorem roaming (calm : p.Calm q) : q.info.roaming = p.info.roaming := by
  obtain ⟨_, _, info⟩ := calm.info
  rw [info]

theorem allowedIps (calm : p.Calm q) : q.info.allowedIps ⊆ p.info.allowedIps := by
  obtain ⟨_, fewer, info⟩ := calm.info
  rw [info]
  exact fewer

theorem replaceFirst {pred : Transport → Bool} {u : Transport}
    (same : ∀ t, p.transports.val.find? pred = some t → u.origin = t.origin) :
    p.Calm { p with transports := p.transports.replaceFirst pred u } :=
  ⟨⟨_, Finset.Subset.refl _, rfl⟩, rfl, ArrayVec.map_replaceFirst _ pred u _ same⟩

end Calm

def roamed (p : PeerState HS) (a : SocketAddrV6) : PeerState HS :=
  { p with info := { p.info with endpoint := if p.info.roaming then some a else p.info.endpoint } }

theorem roam_eq (p : PeerState HS) (a : SocketAddrV6) : p.roam a = .ok (p.roamed a) := by
  cases roaming : p.info.roaming <;> simp [roam, setEndpoint, roamed, roaming]
  simp [← roaming]

theorem setEndpoint_roamed {p q : PeerState HS} (set : p.setEndpoint a = .ok q) :
    p.info.roaming = true ∧ q = p.roamed a := by
  cases roaming : p.info.roaming with
  | false => simp [setEndpoint, roaming, assert] at set
  | true =>
    have moves : p.roam a = p.setEndpoint a := if_pos roaming
    rw [roam_eq, set] at moves
    exact ⟨rfl, (Except.ok.inj moves).symm⟩

end PeerState

namespace WgState

def registry (wg : WgState HS) : Registry WgId PeerRef := ⟨wg.idMap, wg.deferred⟩

theorem dropGuards_registry (wg : WgState HS) (env : Env) (ids : List WgId) :
    (wg.dropGuards env ids).registry = wg.registry.dropAll env.idMapFree ids := by
  induction ids generalizing wg with
  | nil => rfl
  | cons id ids ih =>
    refine (ih (wg.dropGuard env id)).trans ?_
    rw [Registry.dropAll_cons]
    congr 1
    unfold dropGuard Registry.drop
    split_ifs <;> rfl

theorem removeDeferred_registry (wg : WgState HS) (id : WgId) :
    (wg.removeDeferred id).registry = wg.registry.settle id := by
  simp only [registry, Registry.settle, removeDeferred]
  congr!

/-- One peer becomes `p`, the id map becomes `reg`, and the other peers, the maps and tables of the
configuration and the key stay. -/
structure Becomes (peer : PeerRef) (p : PeerState HS) (reg : Registry WgId PeerRef)
    (wg next : WgState HS) : Prop where
  key : next.info.key = wg.info.key
  pubkeyMap : next.pubkeyMap = wg.pubkeyMap
  rt : next.rt = wg.rt
  nextPeer : next.nextPeer = wg.nextPeer
  loops : ∀ loop ∈ next.loops, loop ∈ wg.loops ∨ loop.peer = peer
  self : next.peers peer = p
  others : ∀ ref, ref ≠ peer → (wg.peers ref).Calm (next.peers ref)
  registry : next.registry = reg

namespace Becomes

variable {wg middle next : WgState HS} {peer : PeerRef} {p q : PeerState HS}

theorem refl (wg : WgState HS) (peer : PeerRef) : Becomes peer (wg.peers peer) wg.registry wg wg :=
  ⟨rfl, rfl, rfl, rfl, fun _ => .inl, rfl, fun _ _ => .refl _, rfl⟩

theorem setPeerState (becomes : Becomes peer p reg wg next) (q : PeerState HS) :
    Becomes peer q reg wg (next.setPeerState peer q) :=
  { becomes with
    self := by simp [WgState.setPeerState]
    others := fun ref apart => by
      simpa [WgState.setPeerState, apart] using becomes.others ref apart }

theorem dropGuards (becomes : Becomes peer p reg wg next) (env : Env) (ids : List WgId) :
    Becomes peer p (reg.dropAll env.idMapFree ids) wg (next.dropGuards env ids) := by
  have registry := dropGuards_registry next env ids
  rw [becomes.registry] at registry
  obtain ⟨idMap, deferred, eq⟩ := dropGuards_eq next env ids
  rw [eq] at registry ⊢
  exact { becomes with registry }

theorem insertId (becomes : Becomes peer p reg wg next) (id : WgId) (owner : PeerRef) :
    Becomes peer p (reg.insert id owner) wg (next.insertId id owner) :=
  { becomes with registry := by rw [← becomes.registry]; rfl }

theorem addLoop (becomes : Becomes peer p reg wg next) (scope nextScope : ScopeId) :
    Becomes peer p reg wg { next with loops := next.loops ++ [⟨scope, peer⟩], nextScope } :=
  { becomes with
    loops := fun loop member => by
      rcases List.mem_append.mp member with old | new
      · exact becomes.loops loop old
      · exact .inr (by rw [List.mem_singleton.mp new]) }

theorem eraseLoop (becomes : Becomes peer p reg wg next) (loop : ResendLoop) :
    Becomes peer p reg wg { next with loops := next.loops.erase loop } :=
  { becomes with loops := fun other member => becomes.loops other (List.mem_of_mem_erase member) }

end Becomes

/-- What the id map and the configuration hold stays, and one peer may start a resend loop. -/
def Quiet (peer : PeerRef) (wg next : WgState HS) : Prop :=
  ∃ p, (wg.peers peer).Calm p ∧ Becomes peer p wg.registry wg next

namespace Quiet

variable {wg next : WgState HS} {peer : PeerRef}

theorem refl (wg : WgState HS) (peer : PeerRef) : Quiet peer wg wg := ⟨_, .refl _, .refl wg peer⟩

theorem setPeerState {p : PeerState HS} (calm : (wg.peers peer).Calm p) :
    Quiet peer wg (wg.setPeerState peer p) := ⟨p, calm, (Becomes.refl wg peer).setPeerState p⟩

theorem calm (quiet : Quiet peer wg next) (ref : PeerRef) : (wg.peers ref).Calm (next.peers ref) := by
  obtain ⟨p, calm, becomes⟩ := quiet
  by_cases here : ref = peer
  · rw [here, becomes.self]
    exact calm
  · exact becomes.others ref here

end Quiet

/-- An initiation is newer than those before it, and a response to it can be written. -/
def Answers (wg : WgState HS) (env : Env) (r : InitProcessResult HS) (peer : PeerRef) : Prop :=
  r.timestamp.newer (wg.peers peer).lastHandshake = true ∧
    (c.writeMessage (c.pushPsk r.handshakeState ((wg.peers peer).info.psk.getD (zeros 32)))
      env.ephemeral [] 48).isSome

/-- The resend loop has somewhere to send an initiation, and can write one. -/
def Initiates (wg : WgState HS) (env : Env) (peer : PeerRef) : Prop :=
  (wg.peers peer).info.endpoint.isSome ∧
    (initiate c wg.info (wg.peers peer).info env.id env.ephemeral env.time).isSome

/-- What answering an initiation makes of the peer, where `t` is the session. -/
structure Responds (env : Env) (initiation : Bytes) (addr : SocketAddrV6) (timestamp : TAI64N) (mac1 : U8Array 16)
    (t : Transport) (outputs : List Output) (p q : PeerState HS) : Prop where
  info : q.info = (p.roamed addr).info
  lastHandshake : q.lastHandshake = some timestamp
  handshake : q.handshake = none
  handshakeResendScope : q.handshakeResendScope = none
  queue : q.queue = p.queue
  transports : q.transports = (p.transports.pushFront t).2
  rekeyNoRecv : q.rekeyNoRecv = p.rekeyNoRecv
  lastMac1 : q.lastMac1 = some mac1
  cookie : q.cookie = p.cookie
  life : p.life.Passes env.now (.received initiation :: outputs.map .sent ++ [.established]) q.life

theorem acceptInitiation_cases {wg next : WgState HS}
    (ok : wg.acceptInitiation c env p addr r peer = .ok (next, outputs)) :
    (¬ wg.Answers c env r peer ∧ outputs = [] ∧
      ∃ lastHandshake, next = wg.setPeerState peer { (wg.peers peer).countRecv p.length with lastHandshake }) ∨
    ∃ response hs mac1 q, wg.Answers c env r peer ∧
      responde c { r with handshakeState := c.pushPsk r.handshakeState ((wg.peers peer).info.psk.getD (zeros 32)) }
        env.id env.ephemeral = .ok (some (response, hs)) ∧ getMac1 response.val = .ok mac1 ∧
      outputs = [.sendTo (cookieSign c response ((wg.peers peer).getCookie env.now)).val addr] ∧
      Responds env p addr r.timestamp mac1 (Transport.newFromHs c env.now env.id r.peerId hs) outputs (wg.peers peer) q ∧
      next = ((wg.setPeerState peer q).dropGuards env ((((wg.peers peer).transports.pushFront
        (Transport.newFromHs c env.now env.id r.peerId hs)).1.map Transport.selfId).toList ++
        (wg.peers peer).handshakeIds)).insertId env.id peer := by
  by_cases newer : r.timestamp.newer (wg.peers peer).lastHandshake = true
  swap
  · rw [acceptInitiation_stale c (by simpa using newer)] at ok
    obtain ⟨rfl, rfl⟩ := Prod.mk.inj (Except.ok.inj ok)
    exact .inl ⟨fun answers => newer answers.1, rfl, _, rfl⟩
  have counted : r.timestamp.newer ((wg.peers peer).countRecv p.length).lastHandshake = true := newer
  have psk : ((wg.peers peer).countRecv p.length).info.psk = (wg.peers peer).info.psk := rfl
  simp only [acceptInitiation, counted, Bool.not_true, Bool.false_eq_true, if_false, psk] at ok
  obtain ⟨response, responded, ok⟩ := bind_eq_ok.mp ok
  cases response with
  | none =>
    obtain ⟨rfl, rfl⟩ := Prod.mk.inj (Except.ok.inj ok)
    refine .inl ⟨fun answers => ?_, rfl, _, rfl⟩
    obtain ⟨⟨noise, hs⟩, written⟩ := Option.isSome_iff_exists.mp answers.2
    simp only [responde, written] at responded
    obtain ⟨_, _, responded⟩ := bind_eq_ok.mp responded
    cases responded
  | some result =>
    obtain ⟨response, hs⟩ := result
    obtain ⟨noise, _, written, _, _⟩ := responde_eq c responded
    obtain ⟨mac1, mac1Of, ok⟩ := bind_eq_ok.mp ok
    obtain ⟨roamed, roams, ok⟩ := bind_eq_ok.mp ok
    rw [PeerState.roam_eq] at roams
    obtain rfl := Except.ok.inj roams
    obtain ⟨rfl, rfl⟩ := Prod.mk.inj (Except.ok.inj ok)
    refine .inr ⟨response, hs, mac1, _, ⟨newer, Option.isSome_iff_exists.mpr ⟨_, written⟩⟩, responded, mac1Of, rfl,
      ?_, rfl⟩
    refine ⟨rfl, rfl, rfl, rfl, rfl, rfl, rfl, rfl, rfl, .cons trivial (.cons trivial (.one trivial ?_))⟩
    exact PeerState.life_establish _ _ rfl none

theorem sealed_sizes {t : Transport} {packets : List Bytes} {outputs : List Output}
    (sent : List.Forall₂ (fun packet output => ∃ ctr, output = .sendTo (t.sealed c ctr packet) addr) packets outputs) :
    packets.map (fun packet => packet.length + 32) = outputs.map Output.size := by
  induction sent with
  | nil => rfl
  | cons one _ ih =>
    obtain ⟨ctr, rfl⟩ := one
    rw [List.map_cons, List.map_cons, ih, Output.size, Transport.sealed_length]

/-- What finishing a handshake makes of the peer, where `t` is the new session, and `u` after the queue
is sent on it. -/
structure Finishes (env : Env) (addr : SocketAddrV6) (t u : Transport) (outputs : List Output)
    (p q : PeerState HS) : Prop where
  info : q.info = (p.roamed addr).info
  lastHandshake : q.lastHandshake = p.lastHandshake
  handshake : q.handshake = none
  handshakeResendScope : q.handshakeResendScope = none
  queue : q.queue = []
  counts : ∃ sendCounter, u = { t with sendCounter }
  transports : q.transports = (p.transports.pushFront u).2
  sent : List.Forall₂ (fun packet output => ∃ ctr, output = .sendTo (t.sealed c ctr packet) addr) p.queue outputs
  flushed : WgState.flushQueue c t addr p.queue = .ok (outputs, u)
  rekeyNoRecv : outputs = [] ∧ q.rekeyNoRecv = p.rekeyNoRecv ∨ outputs ≠ [] ∧
    q.rekeyNoRecv = p.rekeyNoRecv.adjustAndActivateIfNotActivated env.now (KEEPALIVE_TIMEOUT + REKEY_TIMEOUT)
  lastMac1 : q.lastMac1 = p.lastMac1
  cookie : q.cookie = p.cookie
  life : p.life.Passes env.now (.established ::
    if outputs = [] then [.unconfirmed] else outputs.map .sent ++ [.sendTransport]) q.life

theorem Finishes.sealed {c : Crypto HS} {p q : PeerState HS} (leaves : Finishes c env addr t u outputs p q) :
    ∀ output ∈ outputs, ∃ ctr packet, output = .sendTo (t.sealed c ctr packet) addr := by
  have sent := leaves.sent
  generalize p.queue = packets at sent
  clear leaves
  induction sent with
  | nil =>
    intro output member
    cases member
  | cons one _ ih =>
    intro output member
    rcases List.mem_cons.mp member with rfl | later
    · obtain ⟨ctr, rfl⟩ := one
      exact ⟨ctr, _, rfl⟩
    · exact ih output later

theorem finishSession_cases {wg next : WgState HS}
    (ok : wg.finishSession c env addr peerId hs peer = .ok (next, outputs)) :
    ∃ h u q, (wg.peers peer).handshake = some h ∧
      Finishes c env addr (Transport.newFromHs c env.now h.selfId peerId hs) u outputs (wg.peers peer) q ∧
      next = (wg.setPeerState peer q).dropGuards env (((wg.peers peer).transports.pushFront
        (Transport.newFromHs c env.now h.selfId peerId hs)).1.map Transport.selfId).toList := by
  simp only [finishSession] at ok
  obtain ⟨h, pending, ok⟩ := bind_eq_ok.mp ok
  have pending : (wg.peers peer).handshake = some h := unwrap_eq_ok.mp pending
  obtain ⟨roamed, roams, ok⟩ := bind_eq_ok.mp ok
  rw [PeerState.roam_eq] at roams
  obtain rfl := Except.ok.inj roams
  split_ifs at ok with idle
  · obtain ⟨rfl, rfl⟩ := Prod.mk.inj (Except.ok.inj ok)
    have empty : (wg.peers peer).queue = [] := List.isEmpty_iff.mp idle
    refine ⟨h, Transport.newFromHs c env.now h.selfId peerId hs, _, pending, ?_, rfl⟩
    refine ⟨rfl, rfl, rfl, rfl, rfl, ⟨_, rfl⟩, rfl, ?_, ?_, .inl ⟨rfl, rfl⟩, rfl, rfl, .cons trivial (.one trivial ?_)⟩
    · rw [empty]
      exact .nil
    · rw [empty]
      rfl
    · exact congrArg (Life.after · env.now .unconfirmed) (PeerState.life_establish (wg.peers peer) _ rfl none)
  · rw [countPackets_spec] at ok
    obtain ⟨⟨sent, u⟩, flushed, ok⟩ := bind_eq_ok.mp ok
    obtain ⟨rfl, rfl⟩ := Prod.mk.inj (Except.ok.inj ok)
    obtain ⟨counts, seals⟩ := flushQueue_spec c flushed
    refine ⟨h, u, _, pending, ?_, rfl⟩
    have sends : sent ≠ [] := by
      rintro rfl
      exact idle (List.isEmpty_iff.mpr (List.forall₂_nil_right_iff.mp seals))
    refine ⟨rfl, rfl, rfl, rfl, rfl, counts, ArrayVec.replaceFirst_pushFront .., seals, flushed, .inr ⟨sends, rfl⟩,
      rfl, rfl, ?_⟩
    have sizes := sealed_sizes c seals
    obtain ⟨sendCounter, rfl⟩ := counts
    have young : ({ Transport.newFromHs c env.now h.selfId peerId hs with sendCounter } : Transport).created = env.now := rfl
    have established := PeerState.life_establish (wg.peers peer) _ young none
    rw [if_neg sends]
    refine .cons trivial ((Life.Passes.sent _ env.now sent).append (.one trivial ?_))
    rw [← established, ← sizes]
    refine congrArg (fun transports => PeerState.life { PeerState.onSendTransport _ _ with transports }) ?_
    exact ArrayVec.replaceFirst_pushFront ..

/-- A session comes in front of those of a peer, what makes room for it goes, and so does the pending
handshake. -/
structure Establishes (addr : SocketAddrV6) (t : Transport) (evicted : List WgId)
    (p q : PeerState HS) : Prop where
  info : q.info = (p.roamed addr).info
  handshake : q.handshake = none
  sessions : ∃ kept gone, q.sessions = t :: kept ∧ p.sessions = kept ++ gone ∧
    evicted = gone.map Transport.selfId

theorem Establishes.of_pushed {addr : SocketAddrV6} {t u : Transport} {p q : PeerState HS}
    (info : q.info = (p.roamed addr).info)
    (handshake : q.handshake = none) (made : u.origin = t)
    (transports : q.sessions = (p.transports.pushFront u).2.val.map Transport.origin)
    (gone : evicted = ((p.transports.pushFront u).1.map Transport.selfId).toList) :
    Establishes addr t evicted p q := by
  obtain ⟨kept, next, split⟩ := p.transports.pushFront_split u
  refine ⟨info, handshake, kept.map Transport.origin,
    (p.transports.pushFront u).1.toList.map Transport.origin, ?_, ?_, ?_⟩
  · rw [transports, next, List.map_cons, made]
  · rw [PeerState.sessions, ← List.map_append, ← split]
  · rw [gone, List.map_map]
    cases (p.transports.pushFront u).1 <;> rfl

def Accepted (wg : WgState HS) (env : Env) (addr : SocketAddrV6) (r : InitProcessResult HS)
    (peer : PeerRef) (next : WgState HS) : Prop :=
  ∃ noise hs q evicted,
    c.writeMessage (c.pushPsk r.handshakeState ((wg.peers peer).info.psk.getD (zeros 32)))
      env.ephemeral [] 48 = some (noise, hs) ∧
    Establishes addr (Transport.newFromHs c env.now env.id r.peerId hs) evicted (wg.peers peer) q ∧
    Becomes peer q ((wg.registry.dropAll env.idMapFree
      (evicted ++ (wg.peers peer).handshakeIds)).insert env.id peer) wg next

theorem acceptInitiation_does {wg next : WgState HS}
    (ok : wg.acceptInitiation c env p addr r peer = .ok (next, outputs)) :
    ¬ wg.Answers c env r peer ∧ Quiet peer wg next ∨
    wg.Answers c env r peer ∧ wg.Accepted c env addr r peer next := by
  rcases acceptInitiation_cases c ok with ⟨refused, _, _, rfl⟩ | ⟨response, hs, mac1, q, answers, responded, _, _, leaves, rfl⟩
  · exact .inl ⟨refused, .setPeerState (.of_eq rfl rfl rfl)⟩
  · obtain ⟨noise, _, written, _, _⟩ := responde_eq c responded
    refine .inr ⟨answers, noise, hs, q, _, written, ?_,
      (((Becomes.refl wg peer).setPeerState _).dropGuards env _).insertId env.id peer⟩
    exact .of_pushed leaves.info leaves.handshake (Transport.origin_newFromHs c _ _ _ _)
      (congrArg (fun v => v.val.map Transport.origin) leaves.transports) rfl

def Finished (wg : WgState HS) (env : Env) (addr : SocketAddrV6) (peerId : WgId) (hs : HS)
    (peer : PeerRef) (next : WgState HS) : Prop :=
  ∃ h q evicted, (wg.peers peer).handshake = some h ∧
    Establishes addr (Transport.newFromHs c env.now h.selfId peerId hs) evicted (wg.peers peer) q ∧
    Becomes peer q (wg.registry.dropAll env.idMapFree evicted) wg next

theorem finishSession_does {wg next : WgState HS}
    (ok : wg.finishSession c env addr peerId hs peer = .ok (next, outputs)) :
    wg.Finished c env addr peerId hs peer next := by
  obtain ⟨h, u, q, pending, leaves, rfl⟩ := finishSession_cases c ok
  refine ⟨h, q, _, pending, ?_, ((Becomes.refl wg peer).setPeerState _).dropGuards env _⟩
  obtain ⟨sendCounter, rfl⟩ := leaves.counts
  refine .of_pushed leaves.info leaves.handshake rfl
    (congrArg (fun v => v.val.map Transport.origin) leaves.transports) ?_
  rw [ArrayVec.pushFront_evicts]

def Withdrawn (wg : WgState HS) (env : Env) (peer : PeerRef) (next : WgState HS) : Prop :=
  ∃ reg, Becomes peer (wg.peers peer) reg wg next ∧ (reg = wg.registry ∨
    (wg.peers peer).info.endpoint.isSome = true ∧
      reg = (wg.registry.insert env.id peer).dropAll env.idMapFree [env.id])

def Initiated (wg : WgState HS) (env : Env) (peer : PeerRef) (next : WgState HS) : Prop :=
  ∃ msg hs q, initiate c wg.info (wg.peers peer).info env.id env.ephemeral env.time = some (msg, hs) ∧
    q.info = (wg.peers peer).info ∧ q.handshake = some ⟨env.id, hs⟩ ∧
    q.sessions = (wg.peers peer).sessions ∧
    Becomes peer q ((wg.registry.insert env.id peer).dropAll env.idMapFree
      (wg.peers peer).handshakeIds) wg next

theorem resendInitiation_does {wg next : WgState HS}
    (ok : wg.resendInitiation c env peer = .ok (next, outputs)) :
    ¬ wg.Initiates c env peer ∧ wg.Withdrawn env peer next ∨
    wg.Initiates c env peer ∧ wg.Initiated c env peer next := by
  simp only [resendInitiation] at ok
  cases endpoint : (wg.peers peer).info.endpoint with
  | none =>
    rw [endpoint] at ok
    obtain ⟨rfl, _⟩ := Prod.mk.inj (Except.ok.inj ok)
    exact .inl ⟨fun initiates => by simp [Initiates, endpoint] at initiates, _, .refl wg peer, .inl rfl⟩
  | some addr =>
    simp only [endpoint] at ok
    cases initiated : initiate c wg.info (wg.peers peer).info env.id env.ephemeral env.time with
    | none =>
      simp only [initiated] at ok
      obtain ⟨rfl, _⟩ := Prod.mk.inj (Except.ok.inj ok)
      refine .inl ⟨fun initiates => by simp [Initiates, initiated] at initiates, _, ?_,
        .inr ⟨by rw [endpoint]; rfl, rfl⟩⟩
      exact ((Becomes.refl wg peer).insertId env.id peer).dropGuards env [env.id]
    | some result =>
      obtain ⟨msg, hs⟩ := result
      simp only [initiated] at ok
      obtain ⟨mac1, _, ok⟩ := bind_eq_ok.mp ok
      obtain ⟨rfl, _⟩ := Prod.mk.inj (Except.ok.inj ok)
      refine .inr ⟨by simp [Initiates, endpoint, initiated], msg, hs, _, initiated, ?_, ?_, ?_,
        (((Becomes.refl wg peer).insertId env.id peer).setPeerState _).dropGuards env _⟩ <;> rfl

theorem verifyResponse_does {wg next : WgState HS}
    (ok : wg.verifyResponse c p selfId peer = .ok (verified, next)) :
    Quiet peer wg next ∧ ∀ peerId hs, verified = some (peerId, hs) → ∃ h,
      (wg.peers peer).handshake = some h ∧ h.selfId = selfId ∧
      processResponse c h.hs p = .ok (some (peerId, hs)) := by
  have counted : Quiet peer wg (wg.setPeerState peer ((wg.peers peer).countRecv p.length)) :=
    .setPeerState (.of_eq rfl rfl rfl)
  have pending : ((wg.peers peer).countRecv p.length).handshake = (wg.peers peer).handshake := rfl
  simp only [verifyResponse, pending] at ok
  cases pending : (wg.peers peer).handshake with
  | none =>
    rw [pending] at ok
    obtain ⟨rfl, rfl⟩ := Prod.mk.inj (Except.ok.inj ok)
    exact ⟨counted, fun _ _ verified => by cases verified⟩
  | some h =>
    simp only [pending] at ok
    by_cases mine : h.selfId = selfId
    · rw [if_neg (not_not.mpr mine)] at ok
      obtain ⟨result, processed, ok⟩ := bind_eq_ok.mp ok
      cases result with
      | none =>
        obtain ⟨rfl, rfl⟩ := Prod.mk.inj (Except.ok.inj ok)
        exact ⟨counted, fun _ _ verified => by cases verified⟩
      | some result =>
        obtain ⟨rfl, rfl⟩ := Prod.mk.inj (Except.ok.inj ok)
        refine ⟨counted, fun peerId hs verified => ⟨h, rfl, mine, ?_⟩⟩
        rw [processed, Option.some.inj verified]
    · rw [if_pos mine] at ok
      obtain ⟨rfl, rfl⟩ := Prod.mk.inj (Except.ok.inj ok)
      exact ⟨counted, fun _ _ verified => by cases verified⟩

theorem acceptCookieReply_quiet {wg next : WgState HS}
    (ok : wg.acceptCookieReply c env p peer = .ok next) : Quiet peer wg next := by
  simp only [acceptCookieReply] at ok
  split at ok
  · rw [← Except.ok.inj ok]
    exact .setPeerState (.of_eq rfl rfl rfl)
  · obtain ⟨result, _, ok⟩ := bind_eq_ok.mp ok
    cases result <;> rw [← Except.ok.inj ok] <;> exact .setPeerState (.of_eq rfl rfl rfl)

/-- A transport message never changes what a session was made with, and the endpoint is to be set
only where the peer roams. -/
theorem decideTransport_does {wg next : WgState HS}
    (ok : wg.decideTransport c env p addr selfId peer = (decision, next)) :
    Quiet peer wg next ∧ (decision.setEndpoint = true → (wg.peers peer).info.roaming = true) := by
  rcases decideTransport_cases c wg env p addr selfId peer with
    ⟨t, h, plain, session, opens, handshake, decided⟩ | ⟨_, decided⟩
  · obtain ⟨rfl, rfl⟩ := Prod.mk.inj (ok.symm.trans decided)
    refine ⟨.setPeerState ?_, fun sets => (Bool.and_eq_true_iff.mp sets).2⟩
    have replaced : (wg.peers peer).Calm { wg.peers peer with
        transports := (wg.peers peer).transports.replaceFirst (fun u => u.selfId = selfId)
          (t.accept (Transport.counterOf p)) } := .replaceFirst fun u found => by
      rw [← Option.some.inj (session.symm.trans found)]
      rfl
    exact replaced.trans (.of_eq rfl rfl rfl)
  · obtain ⟨rfl, rfl⟩ := Prod.mk.inj (ok.symm.trans decided)
    exact ⟨.setPeerState (.of_eq rfl rfl rfl), fun sets => by cases sets⟩

theorem doHandshake_quiet (wg : WgState HS) (env : Env) (peer : PeerRef) :
    Quiet peer wg (wg.doHandshake env peer) := by
  unfold doHandshake
  dsimp only
  split_ifs
  · exact .refl wg peer
  · exact .refl wg peer
  · refine ⟨_, ?_, ((Becomes.refl wg peer).setPeerState _).addLoop wg.nextScope (wg.nextScope + 1)⟩
    exact .of_eq rfl rfl rfl

theorem setTransportToSend_calm {p : PeerState HS} {t : Transport}
    (session : p.findTransportToSend = some t) (msg : Bytes) :
    p.Calm (p.setTransportToSend (t.encrypt c msg).2) :=
  .replaceFirst fun u found => by
    rw [← Option.some.inj (session.symm.trans found)]
    exact Transport.origin_encrypt c t msg

theorem sendOrEnqueue_quiet (wg : WgState HS) (env : Env) (peer : PeerRef) (packet : Bytes) :
    Quiet peer wg (wg.sendOrEnqueue c env peer packet).2 := by
  unfold sendOrEnqueue
  cases endpoint : (wg.peers peer).getEndpoint with
  | none => simpa [endpoint] using Quiet.refl wg peer
  | some addr =>
    cases session : (wg.peers peer).findTransportToSend with
    | none =>
      simp only [endpoint, session]
      exact .setPeerState (.of_eq rfl rfl rfl)
    | some t =>
      have sent := setTransportToSend_calm c session packet
      simp only [endpoint, session]
      cases (t.encrypt c packet).1.1 with
      | none => exact .setPeerState sent
      | some encrypted => exact .setPeerState (sent.trans (.of_eq rfl rfl rfl))

theorem doKeepalive1_quiet (wg : WgState HS) (env : Env) (peer : PeerRef) :
    Quiet peer wg (wg.doKeepalive1 c env peer).2 := by
  unfold doKeepalive1
  cases endpoint : (wg.peers peer).getEndpoint with
  | none => simpa [endpoint] using Quiet.refl wg peer
  | some addr =>
    cases session : (wg.peers peer).findTransportToSend with
    | none => simpa [endpoint, session] using Quiet.refl wg peer
    | some t =>
      have sent := setTransportToSend_calm c session []
      simp only [endpoint, session]
      cases (t.encrypt c []).1.1 with
      | none => exact .setPeerState sent
      | some out => exact .setPeerState (sent.trans (.of_eq rfl rfl rfl))

theorem modifySession_quiet (wg : WgState HS) (peer : PeerRef) (i : Nat) (task : SessionTask) :
    Quiet peer wg (wg.modifySession peer i task.run) :=
  .setPeerState ⟨⟨_, Finset.Subset.refl _, rfl⟩, rfl,
    ArrayVec.map_modify _ i task.run _ (Transport.origin_run task)⟩

/-- What `set_peer` does to its peer, with the ids that it drops. -/
structure Configured (command : SetPeerCommand) (p q : PeerState HS) (dropped : List WgId) : Prop where
  rekeyed : p.info.psk ≠ command.presharedKey →
    q.handshake = none ∧ q.sessions = [] ∧ dropped = p.ownedIds
  kept : p.info.psk = command.presharedKey →
    q.handshake = p.handshake ∧ q.sessions = p.sessions ∧ dropped = []
  pinned : ∀ e, command.endpoint = some e →
    q.info.endpoint = some (mapIpv4ToIpv6 e) ∧ q.info.roaming = false
  unpinned : command.endpoint = none →
    q.info.endpoint = p.info.endpoint ∧ q.info.roaming = p.info.roaming

theorem setPeerInfo_does (env : Env) (p : PeerState HS) (command : SetPeerCommand)
    (allowedIps : Finset AllowedIp) : Configured command p
      ((setPeerInfo env p command).2.withAllowedIps allowedIps) (setPeerInfo env p command).1 := by
  obtain ⟨keepalive, persistentKeepalive, set, _⟩ :=
    setKeepalive_eq (pinEndpoint (setPsk p command.presharedKey).2 command.endpoint) env.now
      command.keepalive
  have info : (setPeerInfo env p command).2 = { pinEndpoint (setPsk p command.presharedKey).2
      command.endpoint with
    info := { (pinEndpoint (setPsk p command.presharedKey).2 command.endpoint).info with keepalive }
    persistentKeepalive } := set
  have unpinned : (pinEndpoint (setPsk p command.presharedKey).2 command.endpoint).handshake =
        (setPsk p command.presharedKey).2.handshake ∧
      (pinEndpoint (setPsk p command.presharedKey).2 command.endpoint).transports =
        (setPsk p command.presharedKey).2.transports := by
    cases command.endpoint <;> exact ⟨rfl, rfl⟩
  have handshake : ((setPeerInfo env p command).2.withAllowedIps allowedIps).handshake =
      (setPsk p command.presharedKey).2.handshake := by
    rw [info]
    exact unpinned.1
  have sessions : ((setPeerInfo env p command).2.withAllowedIps allowedIps).sessions =
      (setPsk p command.presharedKey).2.sessions := by
    rw [info]
    exact congrArg (fun v => v.val.map Transport.origin) unpinned.2
  have same : (setPsk p command.presharedKey).2.info.endpoint = p.info.endpoint ∧
      (setPsk p command.presharedKey).2.info.roaming = p.info.roaming := by
    unfold setPsk
    split_ifs <;> exact ⟨rfl, rfl⟩
  refine ⟨fun changed => ?_, fun kept => ?_, fun e pinned => ?_, fun nothing => ?_⟩
  · have cleared : setPsk p command.presharedKey = (p.clear.1,
        { p.clear.2 with info := { p.clear.2.info with psk := command.presharedKey } }) := by
      rw [setPsk, if_pos changed]
    refine ⟨handshake.trans ?_, sessions.trans ?_, ?_⟩
    · rw [cleared]
      rfl
    · rw [cleared]
      rfl
    · exact congrArg Prod.fst cleared
  · have unchanged : setPsk p command.presharedKey = ([], p) := by
      rw [setPsk, if_neg (not_not.mpr kept)]
    rw [unchanged] at handshake sessions
    exact ⟨handshake, sessions, congrArg Prod.fst unchanged⟩
  · simp only [PeerState.withAllowedIps, info, pinned, pinEndpoint, and_self]
  · simp only [PeerState.withAllowedIps, info, nothing, pinEndpoint]
    exact same

theorem dropDisplaced_calm {peers next : PeerRef → PeerState HS}
    {displaced : List (PeerRef × AllowedIp)} (ok : dropDisplaced peer peers displaced = .ok next) :
    next peer = peers peer ∧ ∀ ref, (peers ref).Calm (next ref) := by
  induction displaced generalizing peers with
  | nil =>
    obtain rfl := Except.ok.inj ok
    exact ⟨rfl, fun _ => .refl _⟩
  | cons head rest ih =>
    obtain ⟨old, ip⟩ := head
    simp only [dropDisplaced] at ok
    by_cases own : old = peer
    · rw [if_pos own] at ok
      cases ok
    rw [if_neg own] at ok
    obtain ⟨_, _, ok⟩ := bind_eq_ok.mp ok
    obtain ⟨self, later⟩ := ih ok
    rw [Function.update_of_ne (Ne.symm own)] at self
    refine ⟨self, fun ref => .trans ?_ (later ref)⟩
    by_cases here : ref = old
    · subst here
      rw [Function.update_self]
      exact ⟨⟨_, Finset.erase_subset ip _, rfl⟩, rfl, rfl⟩
    · rw [Function.update_of_ne here]
      exact .refl _

/-- The command is carried out on its peer. -/
def Reconfigured (wg : WgState HS) (env : Env) (command : SetPeerCommand) (peer : PeerRef)
    (next : WgState HS) : Prop :=
  ∃ q dropped, Configured command (wg.peers peer) q dropped ∧
    Becomes peer q (wg.registry.dropAll env.idMapFree dropped) { wg with rt := next.rt } next

theorem configure_does {wg next : WgState HS} (ok : wg.configure env peer command = .ok next) :
    wg.Reconfigured env command peer next := by
  simp only [configure] at ok
  obtain ⟨⟨displaced, rt, allowedIps⟩, _, ok⟩ := bind_eq_ok.mp ok
  obtain ⟨peers, dropped, ok⟩ := bind_eq_ok.mp ok
  obtain rfl := Except.ok.inj ok
  obtain ⟨self, calm⟩ := dropDisplaced_calm dropped
  have registry := dropGuards_registry (wg.setPeerState peer (setPeerInfo env (wg.peers peer) command).2)
    env (setPeerInfo env (wg.peers peer) command).1
  obtain ⟨idMap, deferred, guards⟩ :=
    dropGuards_eq (wg.setPeerState peer (setPeerInfo env (wg.peers peer) command).2) env
      (setPeerInfo env (wg.peers peer) command).1
  rw [guards] at self calm registry ⊢
  refine ⟨_, _, setPeerInfo_does env (wg.peers peer) command allowedIps, rfl, rfl, rfl, rfl, fun _ => .inl,
    ?_, fun ref apart => ?_, registry⟩
  · simpa [setPeerState, PeerState.withAllowedIps] using self
  · simpa [setPeerState, apart] using calm ref

/-- A peer loses all that it owns, whatever happens to the routes. -/
def Cleared (wg : WgState HS) (env : Env) (peer : PeerRef) (next : WgState HS) : Prop :=
  Becomes peer (wg.peers peer).clear.2 (wg.registry.dropAll env.idMapFree (wg.peers peer).ownedIds)
    { wg with rt := next.rt } next

theorem clearPeer_does (wg : WgState HS) (env : Env) (peer : PeerRef) :
    wg.Cleared env peer (wg.clearPeer env peer) := by
  have becomes := ((Becomes.refl wg peer).setPeerState (wg.peers peer).clear.2).dropGuards env
    (wg.peers peer).ownedIds
  exact { becomes with rt := rfl }

theorem detach_does {wg next : WgState HS} (ok : wg.detach env peer = .ok next) :
    wg.Cleared env peer next := by
  obtain ⟨rt, _, ok⟩ := bind_eq_ok.mp ok
  obtain rfl := Except.ok.inj ok
  exact { clearPeer_does wg env peer with rt := rfl }

end WgState

namespace Section

open WgState

/-- What a section does, and what it leads to. -/
def Does (env : Env) (wg next : WgState HS) (more : List (Section HS)) : Section HS → Prop
  | accept _ addr r peer => more = [] ∧ (¬ wg.Answers c env r peer ∧ Quiet peer wg next ∨
      wg.Answers c env r peer ∧ wg.Accepted c env addr r peer next)
  | verify p addr selfId peer => Quiet peer wg next ∧ (more = [] ∨ ∃ h peerId hs,
      (wg.peers peer).handshake = some h ∧ h.selfId = selfId ∧
      processResponse c h.hs p = .ok (some (peerId, hs)) ∧
      more = [insertId selfId peer, finish p addr selfId peerId hs peer])
  | insertId selfId peer => more = [] ∧
      Becomes peer (wg.peers peer) (wg.registry.insert selfId peer) wg next
  | finish _ addr _ peerId hs peer => more = [] ∧ wg.Finished c env addr peerId hs peer next
  | decide _ addr _ peer => Quiet peer wg next ∧ ∀ sec ∈ more, sec = doHandshake peer ∨
      sec = setEndpoint addr peer ∧ (wg.peers peer).info.roaming = true
  | setEndpoint addr peer => more = [] ∧ (wg.peers peer).info.roaming = true ∧
      Becomes peer ((wg.peers peer).roamed addr) wg.registry wg next
  | cookie _ peer | doHandshake peer | rearm peer | dropScope peer => more = [] ∧ Quiet peer wg next
  | send _ peer | keepalive peer => Quiet peer wg next ∧ ∀ sec ∈ more, sec = doHandshake peer
  | dropHandshake peer => more = [] ∧ Becomes peer { wg.peers peer with handshake := none }
      (wg.registry.dropAll env.idMapFree (wg.peers peer).handshakeIds) wg next
  | clear peer => more = [] ∧ wg.Cleared env peer next ∧ next.rt = wg.rt
  | addPeer publicKey => more = [] ∧ next = (wg.addPeer env publicKey).2
  | configure command peer => more = [] ∧ wg.Reconfigured env command peer next
  | unlist publicKey => more = [] ∧ wg.pubkeyMap.get publicKey = none ∧ next = wg ∨
      ∃ peer, wg.pubkeyMap.get publicKey = some peer ∧ more = [detach peer] ∧
        next = { wg with pubkeyMap := wg.pubkeyMap.remove publicKey }
  | detach peer => more = [] ∧ wg.Cleared env peer next
  | storeKey key => more = [] ∧ next = { wg with info := { wg.info with key } }

theorem run_does {sec : Section HS} (ok : sec.run c env wg = .ok (next, more)) :
    sec.Does c env wg next more := by
  cases sec with
  | accept p addr r peer =>
    obtain ⟨⟨_, _⟩, accepted, ok⟩ := bind_eq_ok.mp ok
    obtain ⟨rfl, rfl⟩ := Prod.mk.inj (Except.ok.inj ok)
    exact ⟨rfl, acceptInitiation_does c accepted⟩
  | verify p addr selfId peer =>
    obtain ⟨⟨verified, _⟩, verifies, ok⟩ := bind_eq_ok.mp ok
    obtain ⟨quiet, pending⟩ := verifyResponse_does c verifies
    cases verified with
    | none =>
      obtain ⟨rfl, rfl⟩ := Prod.mk.inj (Except.ok.inj ok)
      exact ⟨quiet, .inl rfl⟩
    | some result =>
      obtain ⟨rfl, rfl⟩ := Prod.mk.inj (Except.ok.inj ok)
      obtain ⟨h, pending, mine, processed⟩ := pending result.1 result.2 rfl
      exact ⟨quiet, .inr ⟨h, _, _, pending, mine, processed, rfl⟩⟩
  | insertId selfId peer =>
    obtain ⟨rfl, rfl⟩ := Prod.mk.inj (Except.ok.inj ok)
    exact ⟨rfl, (Becomes.refl wg peer).insertId selfId peer⟩
  | finish p addr selfId peerId hs peer =>
    obtain ⟨⟨_, _⟩, finished, ok⟩ := bind_eq_ok.mp ok
    obtain ⟨rfl, rfl⟩ := Prod.mk.inj (Except.ok.inj ok)
    exact ⟨rfl, finishSession_does c finished⟩
  | cookie p peer =>
    obtain ⟨_, accepted, ok⟩ := bind_eq_ok.mp ok
    obtain ⟨rfl, rfl⟩ := Prod.mk.inj (Except.ok.inj ok)
    exact ⟨rfl, acceptCookieReply_quiet c accepted⟩
  | decide p addr selfId peer =>
    obtain ⟨rfl, rfl⟩ := Prod.mk.inj (Except.ok.inj ok)
    obtain ⟨quiet, roams⟩ := decideTransport_does c
      (show wg.decideTransport c env p addr selfId peer = (_, _) from rfl)
    refine ⟨quiet, fun sec member => ?_⟩
    rcases List.mem_append.mp member with sets | handshake
    · split_ifs at sets with set
      · exact .inr ⟨List.mem_singleton.mp sets, roams set⟩
      · cases sets
    · split_ifs at handshake
      · exact .inl (List.mem_singleton.mp handshake)
      · cases handshake
  | setEndpoint addr peer =>
    obtain ⟨q, set, ok⟩ := bind_eq_ok.mp ok
    obtain ⟨rfl, rfl⟩ := Prod.mk.inj (Except.ok.inj ok)
    obtain ⟨roaming, rfl⟩ := PeerState.setEndpoint_roamed set
    exact ⟨rfl, roaming, (Becomes.refl wg peer).setPeerState _⟩
  | doHandshake peer =>
    obtain ⟨rfl, rfl⟩ := Prod.mk.inj (Except.ok.inj ok)
    exact ⟨rfl, doHandshake_quiet wg env peer⟩
  | send packet peer =>
    obtain ⟨rfl, rfl⟩ := Prod.mk.inj (Except.ok.inj ok)
    refine ⟨sendOrEnqueue_quiet c wg env peer packet, fun sec member => ?_⟩
    split_ifs at member
    · exact List.mem_singleton.mp member
    · cases member
  | keepalive peer =>
    obtain ⟨rfl, rfl⟩ := Prod.mk.inj (Except.ok.inj ok)
    refine ⟨doKeepalive1_quiet c wg env peer, fun sec member => ?_⟩
    split_ifs at member
    · exact List.mem_singleton.mp member
    · cases member
  | rearm peer =>
    obtain ⟨rfl, rfl⟩ := Prod.mk.inj (Except.ok.inj ok)
    exact ⟨rfl, .setPeerState (.of_eq rfl rfl rfl)⟩
  | dropScope peer =>
    obtain ⟨rfl, rfl⟩ := Prod.mk.inj (Except.ok.inj ok)
    exact ⟨rfl, .setPeerState (.of_eq rfl rfl rfl)⟩
  | dropHandshake peer =>
    obtain ⟨rfl, rfl⟩ := Prod.mk.inj (Except.ok.inj ok)
    exact ⟨rfl, ((Becomes.refl wg peer).setPeerState _).dropGuards env _⟩
  | clear peer =>
    obtain ⟨rfl, rfl⟩ := Prod.mk.inj (Except.ok.inj ok)
    exact ⟨rfl, clearPeer_does wg env peer, (SameRouting.clearPeer wg env peer).rt⟩
  | addPeer publicKey =>
    obtain ⟨rfl, rfl⟩ := Prod.mk.inj (Except.ok.inj ok)
    exact ⟨rfl, rfl⟩
  | configure command peer =>
    obtain ⟨_, configured, ok⟩ := bind_eq_ok.mp ok
    obtain ⟨rfl, rfl⟩ := Prod.mk.inj (Except.ok.inj ok)
    exact ⟨rfl, configure_does configured⟩
  | unlist publicKey =>
    simp only [run] at ok
    cases found : wg.pubkeyMap.get publicKey with
    | none =>
      rw [found] at ok
      obtain ⟨rfl, rfl⟩ := Prod.mk.inj (Except.ok.inj ok)
      exact .inl ⟨rfl, found, rfl⟩
    | some peer =>
      rw [found] at ok
      obtain ⟨rfl, rfl⟩ := Prod.mk.inj (Except.ok.inj ok)
      exact .inr ⟨peer, found, rfl, rfl⟩
  | detach peer =>
    obtain ⟨_, detached, ok⟩ := bind_eq_ok.mp ok
    obtain ⟨rfl, rfl⟩ := Prod.mk.inj (Except.ok.inj ok)
    exact ⟨rfl, detach_does detached⟩
  | storeKey key =>
    obtain ⟨rfl, rfl⟩ := Prod.mk.inj (Except.ok.inj ok)
    exact ⟨rfl, rfl⟩

end Section

section Start

open WgState

theorem WgState.resendIteration_does {wg next : WgState HS}
    (ok : wg.resendIteration c env loop = .ok (next, outputs)) :
    ¬ wg.Initiates c env loop.peer ∧ wg.Withdrawn env loop.peer next ∨
    wg.Initiates c env loop.peer ∧ wg.Initiated c env loop.peer next := by
  simp only [resendIteration] at ok
  obtain ⟨⟨middle, _⟩, resent, ok⟩ := bind_eq_ok.mp ok
  have sent := resendInitiation_does c resent
  split_ifs at ok
  · obtain ⟨rfl, _⟩ := Prod.mk.inj (Except.ok.inj ok)
    exact sent
  · obtain ⟨rfl, _⟩ := Prod.mk.inj (Except.ok.inj ok)
    refine sent.imp (.imp_right ?_) (.imp_right ?_)
    · rintro ⟨reg, becomes, taken⟩
      exact ⟨reg, becomes.eraseLoop loop, taken⟩
    · rintro ⟨msg, hs, q, initiated, info, handshake, sessions, becomes⟩
      exact ⟨msg, hs, q, initiated, info, handshake, sessions, becomes.eraseLoop loop⟩

/-- What the rx task takes for a cookie reply. -/
structure IsCookieReply (p : Bytes) : Prop where
  whole : p.take BUFSIZE = p
  long : 12 ≤ p.length
  type : p.getD 0 0 = 3

/-- What the head of a handler passes on, for a packet. -/
inductive Received (wg : WgState HS) (p : Bytes) : List (Section HS) → Prop where
  | nothing : Received wg p []
  | accept {addr : SocketAddrV6} {r : InitProcessResult HS} {rs : X25519Pubkey} {peer : PeerRef} :
    p.getD 0 0 = 1 → processInitiation c wg.info p = .ok (some r) → wg.pubkeyMap.get rs = some peer →
      Received wg p [.accept p addr r peer]
  | verify {addr : SocketAddrV6} {selfId : WgId} {peer : PeerRef} :
    p.getD 0 0 = 2 → sliceArray p 8 4 = .ok selfId → wg.idMap.get selfId = some peer →
      Received wg p [.verify p addr selfId peer]
  | cookie {selfId : WgId} {peer : PeerRef} :
    IsCookieReply p → wg.idMap.get selfId = some peer → Received wg p [.cookie p peer]
  | decide {addr : SocketAddrV6} {selfId : WgId} {peer : PeerRef} :
    wg.idMap.get selfId = some peer → Received wg p [.decide p addr selfId peer]

theorem WgState.receive_does {wg next : WgState HS}
    (ok : wg.receive c env datagram addr = .ok (next, task)) :
    (∃ loadMonitor, next = { wg with loadMonitor }) ∧
      Received c wg (datagram.take BUFSIZE) task := by
  have dropped (wg' : WgState HS) (touched : ∃ loadMonitor, wg' = { wg with loadMonitor })
      (ok : (Except.ok (wg', []) : Exec _) = .ok (next, task)) :
      (∃ loadMonitor, next = { wg with loadMonitor }) ∧
        Received c wg (datagram.take BUFSIZE) task := by
    obtain ⟨rfl, rfl⟩ := Prod.mk.inj (Except.ok.inj ok)
    exact ⟨touched, .nothing⟩
  have whole : (datagram.take BUFSIZE).take BUFSIZE = datagram.take BUFSIZE := by
    rw [List.take_take, Nat.min_self]
  simp only [receive] at ok
  generalize datagram.take BUFSIZE = p at ok dropped whole ⊢
  split_ifs at ok with short one two three four long
  · exact dropped wg ⟨_, rfl⟩ ok
  · obtain ⟨checked, loadMonitor, check, _⟩ :=
      checkMessage_spec c wg env p addr (show 32 ≤ HANDSHAKE_INIT_LEN by decide)
    rw [check, ok_bind] at ok
    cases checked with
    | drop => exact dropped _ ⟨_, rfl⟩ ok
    | reply msg => exact dropped _ ⟨_, rfl⟩ ok
    | pass =>
      obtain ⟨result, processed, ok⟩ := bind_eq_ok.mp ok
      cases result with
      | none => exact dropped _ ⟨_, rfl⟩ ok
      | some r =>
        obtain ⟨rs, _, ok⟩ := bind_eq_ok.mp ok
        cases found : findPeerByPubkey { wg with loadMonitor } rs with
        | none =>
          rw [found] at ok
          exact dropped _ ⟨_, rfl⟩ ok
        | some peer =>
          rw [found] at ok
          obtain ⟨rfl, rfl⟩ := Prod.mk.inj (Except.ok.inj ok)
          exact ⟨⟨_, rfl⟩, .accept one processed found⟩
  · obtain ⟨checked, loadMonitor, check, _⟩ :=
      checkMessage_spec c wg env p addr (show 32 ≤ HANDSHAKE_RESP_LEN by decide)
    rw [check, ok_bind] at ok
    cases checked with
    | drop => exact dropped _ ⟨_, rfl⟩ ok
    | reply msg => exact dropped _ ⟨_, rfl⟩ ok
    | pass =>
      obtain ⟨selfId, index, ok⟩ := bind_eq_ok.mp ok
      cases found : findPeerById { wg with loadMonitor } selfId with
      | none =>
        rw [found] at ok
        exact dropped _ ⟨_, rfl⟩ ok
      | some peer =>
        rw [found] at ok
        obtain ⟨rfl, rfl⟩ := Prod.mk.inj (Except.ok.inj ok)
        exact ⟨⟨_, rfl⟩, .verify two index found⟩
  · obtain ⟨selfId, _, ok⟩ := bind_eq_ok.mp ok
    cases found : wg.findPeerById selfId with
    | none =>
      rw [found] at ok
      exact dropped wg ⟨_, rfl⟩ ok
    | some peer =>
      rw [found] at ok
      obtain ⟨rfl, rfl⟩ := Prod.mk.inj (Except.ok.inj ok)
      exact ⟨⟨_, rfl⟩, .cookie ⟨whole, Nat.le_of_not_lt short, three⟩ found⟩
  · exact dropped wg ⟨_, rfl⟩ ok
  · obtain ⟨selfId, _, ok⟩ := bind_eq_ok.mp ok
    cases found : wg.findPeerById selfId with
    | none =>
      rw [found] at ok
      exact dropped wg ⟨_, rfl⟩ ok
    | some peer =>
      rw [found] at ok
      obtain ⟨rfl, rfl⟩ := Prod.mk.inj (Except.ok.inj ok)
      exact ⟨⟨_, rfl⟩, .decide found⟩
  · exact dropped wg ⟨_, rfl⟩ ok

/-- What starting an operation does at once, and what it leads to. -/
def Op.Does (env : Env) (wg next : WgState HS) (task : List (Section HS)) : Op → Prop
  | .config (.addPeer publicKey) => next = wg ∧ task = [.addPeer publicKey]
  | .config (.setPeer command) => next = wg ∧ (task = [] ∨
      ∃ peer, wg.pubkeyMap.get command.publicKey = some peer ∧ task = [.configure command peer])
  | .config (.removePeer publicKey) => next = wg ∧ task = [.unlist publicKey]
  | .config (.removeAllPeers order) => next = wg ∧ task = (order wg.pubkeyMap).map .unlist
  | .setKey order key => next = wg ∧
      task = ((order wg.pubkeyMap).filterMap wg.pubkeyMap.get).map .clear ++ [.storeKey key]
  | .datagram bytes _ => (∃ loadMonitor, next = { wg with loadMonitor }) ∧
      Received c wg (bytes.take BUFSIZE) task
  | .packet _ => next = wg ∧ (task = [] ∨
      ∃ padded dst peer, wg.rt.longestMatch dst = some peer ∧ task = [.send padded peer])
  | .timer peer kind => Quiet peer wg next ∧ (task = [] ∨ task = kind.sections peer)
  | .resend loop => task = [] ∧ (¬ wg.Initiates c env loop.peer ∧ wg.Withdrawn env loop.peer next ∨
      wg.Initiates c env loop.peer ∧ wg.Initiated c env loop.peer next)
  | .removeDeferred id => task = [] ∧ next = wg.removeDeferred id
  | _ => task = [] ∧ (∃ peer, Quiet peer wg next) ∧ ∀ loop ∈ next.loops, loop ∈ wg.loops

theorem Op.begin_does {op : Op} {wg next : WgState HS} (ok : op.begin c env wg = .ok (next, task)) :
    op.Does c env wg next task := by
  have quiet {middle : WgState HS} (ok : (Except.ok (middle, []) : Exec _) = .ok (next, task))
      (key : middle.info.key = wg.info.key)
      (fields : (middle.pubkeyMap, middle.rt, middle.nextPeer, middle.registry) =
        (wg.pubkeyMap, wg.rt, wg.nextPeer, wg.registry)) (peers : middle.peers = wg.peers)
      (loops : ∀ loop ∈ middle.loops, loop ∈ wg.loops) :
      task = [] ∧ (∃ peer, Quiet peer wg next) ∧ ∀ loop ∈ next.loops, loop ∈ wg.loops := by
    obtain ⟨rfl, rfl⟩ := Prod.mk.inj (Except.ok.inj ok)
    simp only [Prod.mk.injEq] at fields
    obtain ⟨pubkeyMap, rt, nextPeer, registry⟩ := fields
    exact ⟨rfl, ⟨0, _, .refl _, key, pubkeyMap, rt, nextPeer, fun loop member => .inl (loops loop member),
      by rw [peers], fun ref _ => by rw [peers]; exact .refl _, registry⟩, loops⟩
  cases op with
  | config op =>
    cases op with
    | addPeer publicKey =>
      obtain ⟨rfl, rfl⟩ := Prod.mk.inj (Except.ok.inj ok)
      exact ⟨rfl, rfl⟩
    | setPeer command =>
      simp only [Op.begin] at ok
      cases found : wg.findPeerByPubkey command.publicKey with
      | none =>
        rw [found] at ok
        obtain ⟨rfl, rfl⟩ := Prod.mk.inj (Except.ok.inj ok)
        exact ⟨rfl, .inl rfl⟩
      | some peer =>
        rw [found] at ok
        obtain ⟨rfl, rfl⟩ := Prod.mk.inj (Except.ok.inj ok)
        exact ⟨rfl, .inr ⟨peer, found, rfl⟩⟩
    | removePeer publicKey =>
      obtain ⟨rfl, rfl⟩ := Prod.mk.inj (Except.ok.inj ok)
      exact ⟨rfl, rfl⟩
    | removeAllPeers order =>
      obtain ⟨rfl, rfl⟩ := Prod.mk.inj (Except.ok.inj ok)
      exact ⟨rfl, rfl⟩
  | setKey order key =>
    obtain ⟨rfl, rfl⟩ := Prod.mk.inj (Except.ok.inj ok)
    exact ⟨rfl, rfl⟩
  | datagram bytes addr => exact receive_does c ok
  | packet padded =>
    simp only [Op.begin] at ok
    cases parsed : parseIpPacket padded with
    | none =>
      rw [parsed] at ok
      obtain ⟨rfl, rfl⟩ := Prod.mk.inj (Except.ok.inj ok)
      exact ⟨rfl, .inl rfl⟩
    | some header =>
      obtain ⟨_, _, dst⟩ := header
      cases found : wg.findPeerByIp dst with
      | none =>
        simp only [parsed, found] at ok
        obtain ⟨rfl, rfl⟩ := Prod.mk.inj (Except.ok.inj ok)
        exact ⟨rfl, .inl rfl⟩
      | some peer =>
        simp only [parsed, found] at ok
        obtain ⟨rfl, rfl⟩ := Prod.mk.inj (Except.ok.inj ok)
        exact ⟨rfl, .inr ⟨padded, dst, peer, found, rfl⟩⟩
  | timer peer kind =>
    obtain ⟨rfl, rfl⟩ := Prod.mk.inj (Except.ok.inj ok)
    refine ⟨.setPeerState ?_, ?_⟩
    · cases kind <;> exact .of_eq rfl rfl rfl
    · split_ifs
      · exact .inr rfl
      · exact .inl rfl
  | resend loop =>
    obtain ⟨⟨_, _⟩, resent, ok⟩ := bind_eq_ok.mp ok
    obtain ⟨rfl, rfl⟩ := Prod.mk.inj (Except.ok.inj ok)
    exact ⟨rfl, resendIteration_does c resent⟩
  | removeDeferred id =>
    obtain ⟨rfl, rfl⟩ := Prod.mk.inj (Except.ok.inj ok)
    exact ⟨rfl, rfl⟩
  | cancelLoop loop => exact quiet ok rfl rfl rfl fun _ => List.mem_of_mem_erase
  | session peer i task =>
    obtain ⟨rfl, rfl⟩ := Prod.mk.inj (Except.ok.inj ok)
    exact ⟨rfl, ⟨peer, modifySession_quiet wg peer i task⟩, fun _ => id⟩
  | setPort newPort prepared =>
    simp only [Op.begin, WgState.setPort] at ok
    by_cases same : newPort = wg.info.port
    · rw [if_pos same] at ok
      exact quiet ok rfl rfl rfl fun _ => id
    · rw [if_neg same] at ok
      cases prepared with
      | error e => exact quiet ok rfl rfl rfl fun _ => id
      | ok bound =>
        cases channel : wg.socketChannel <;> rw [channel] at ok <;> exact quiet ok rfl rfl rfl fun _ => id
  | setFwmark newFwmark marked =>
    simp only [Op.begin, WgState.setFwmark] at ok
    split_ifs at ok
    · exact quiet ok rfl rfl rfl fun _ => id
    · cases marked <;> exact quiet ok rfl rfl rfl fun _ => id
  | startRx => exact quiet ok rfl rfl rfl fun _ => id
  | takeSocket =>
    simp only [Op.begin] at ok
    split at ok <;> exact quiet ok rfl rfl rfl fun _ => id
  | updateCookieSecret secret => exact quiet ok rfl rfl rfl fun _ => id
  | updateMtu mtu => exact quiet ok rfl rfl rfl fun _ => id

end Start

end Titun
