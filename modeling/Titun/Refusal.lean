import Titun.UdpProcessing

/-! Datagrams that are not accepted: whatever they contain, they leave no trace but counted
bytes and the load monitor, and at most a cookie reply is sent. -/
namespace Titun

namespace WgState

variable {HS : Type} (c : Crypto HS)

/-- Only counters of received bytes and the load monitor may differ. -/
def NoEffect (wg next : WgState HS) : Prop :=
  ∃ (rxBytes : PeerRef → BitVec 64) (loadMonitor : LoadMonitor),
    next = { wg with peers := fun ref => { wg.peers ref with rxBytes := rxBytes ref }, loadMonitor }

theorem NoEffect.refl (wg : WgState HS) : NoEffect wg wg :=
  ⟨fun ref => (wg.peers ref).rxBytes, wg.loadMonitor, rfl⟩

theorem NoEffect.trans {wg middle next : WgState HS} (first : NoEffect wg middle)
    (second : NoEffect middle next) : NoEffect wg next := by
  obtain ⟨_, _, rfl⟩ := first
  obtain ⟨rxBytes, loadMonitor, rfl⟩ := second
  exact ⟨rxBytes, loadMonitor, rfl⟩

theorem NoEffect.loadMonitor (wg : WgState HS) (loadMonitor : LoadMonitor) :
    NoEffect wg { wg with loadMonitor } := ⟨fun ref => (wg.peers ref).rxBytes, loadMonitor, rfl⟩

theorem NoEffect.countRecv (wg : WgState HS) (ref : PeerRef) (size : Nat) :
    NoEffect wg (wg.setPeerState ref ((wg.peers ref).countRecv size)) := by
  refine ⟨fun other => if other = ref then (wg.peers ref).rxBytes + BitVec.ofNat 64 size
    else (wg.peers other).rxBytes, wg.loadMonitor, ?_⟩
  simp only [setPeerState, PeerState.countRecv]
  congr 1
  funext other
  by_cases here : other = ref
  · subst here
    simp
  · simp [here]

/-- A cookie reply to an address. -/
def IsCookieReply (wg : WgState HS) (env : Env) (addr : SocketAddrV6) (msg : U8Array 64) : Prop :=
  ∃ peerId mac1, msg = cookieReply c (wg.info.pubkey c)
    (calcCookie c wg.cookieSecret.val addr.octets) peerId mac1 env.nonce

/-- Nothing is written to the TUN device, and at most a cookie reply is sent, to where the
message came from and shorter than it. -/
def Harmless (wg : WgState HS) (env : Env) (p : Bytes) (addr : SocketAddrV6)
    (outputs : List Output) : Prop :=
  outputs = [] ∨ ∃ msg, outputs = [.sendTo msg.val addr] ∧ IsCookieReply c wg env addr msg ∧
    msg.val.length < p.length

/-- Processing ends without a panic, without an effect, and harmlessly. -/
def Refuses (wg : WgState HS) (env : Env) (p : Bytes) (addr : SocketAddrV6)
    (result : Exec (WgState HS × List Output)) : Prop :=
  ∃ next outputs, result = .ok (next, outputs) ∧ NoEffect wg next ∧ Harmless c wg env p addr outputs

/-- A handshake initiation that is accepted for a peer: it opens, names the peer's key, and is
newer than the initiations accepted before. -/
structure AcceptsInit (wg : WgState HS) (env : Env) (p : Bytes) (addr : SocketAddrV6)
    (r : InitProcessResult HS) (rs : X25519Pubkey) (peer0 : PeerRef) : Prop where
  checked : ∃ next, wg.checkMessage c env p addr HANDSHAKE_INIT_LEN = .ok (.pass, next)
  opened : processInitiation c wg.info p = .ok (some r)
  key : c.getRs r.handshakeState = some rs
  found : wg.findPeerByPubkey rs = some peer0
  newer : r.timestamp.newer (wg.peers peer0).lastHandshake = true

/-- A handshake response that is accepted for a peer: it opens with the pending handshake. -/
structure AcceptsResp (wg : WgState HS) (env : Env) (p : Bytes) (addr : SocketAddrV6)
    (selfId : WgId) (peer0 : PeerRef) : Prop where
  checked : ∃ next, wg.checkMessage c env p addr HANDSHAKE_RESP_LEN = .ok (.pass, next)
  index : sliceArray p 8 4 = .ok selfId
  found : wg.findPeerById selfId = some peer0
  verified : ∃ handshake result, (wg.peers peer0).handshake = some handshake ∧
    handshake.selfId = selfId ∧ processResponse c handshake.hs p = .ok (some result)

/-- A transport message that is accepted for a peer: one of its sessions decrypts it. -/
structure AcceptsTransport (wg : WgState HS) (p : Bytes) (selfId : WgId) (peer0 : PeerRef) : Prop where
  index : sliceArray p 4 4 = .ok selfId
  found : wg.findPeerById selfId = some peer0
  decrypted : ∃ t result, (wg.peers peer0).findTransportById selfId = some t ∧
    (t.decrypt c p).1 = some result

/-- A cookie reply that is accepted for a peer. -/
structure AcceptsCookie (wg : WgState HS) (p : Bytes) (selfId : WgId) (peer0 : PeerRef) : Prop where
  index : sliceArray p 4 4 = .ok selfId
  found : wg.findPeerById selfId = some peer0
  opened : ∃ mac1 cookie, (wg.peers peer0).lastMac1 = some mac1 ∧
    processCookieReply c (wg.peers peer0).info.publicKey mac1 p = .ok (some cookie)

theorem checkHandshakeLoad_eq (wg : WgState HS) (env : Env) : ∃ underLoad loadMonitor,
    wg.checkHandshakeLoad env = (underLoad, { wg with loadMonitor }) := by
  unfold checkHandshakeLoad
  split
  · exact ⟨true, wg.loadMonitor, rfl⟩
  · exact ⟨_, _, rfl⟩

/-- The checks at the head of the handshake handlers never panic and touch only the load monitor. -/
theorem checkMessage_spec (wg : WgState HS) (env : Env) (p : Bytes) (addr : SocketAddrV6) {len : Nat}
    (long : 32 ≤ len) : ∃ checked loadMonitor,
      wg.checkMessage c env p addr len = .ok (checked, { wg with loadMonitor }) ∧
      (checked ≠ .drop → p.length = len) ∧
      ∀ msg, checked = .reply msg → IsCookieReply c wg env addr msg := by
  by_cases size : p.length = len
  swap
  · exact ⟨.drop, wg.loadMonitor, by simp [checkMessage, size], by simp, by simp⟩
  obtain ⟨valid, verified⟩ := verifyMac1_ok c wg.info (size ▸ long)
  cases valid with
  | false => exact ⟨.drop, wg.loadMonitor, by simp [checkMessage, size, verified], by simp, by simp⟩
  | true =>
    obtain ⟨underLoad, loadMonitor, load⟩ := checkHandshakeLoad_eq wg env
    cases underLoad with
    | false =>
      exact ⟨.pass, loadMonitor, by simp [checkMessage, size, verified, load], fun _ => size, by simp⟩
    | true =>
      obtain ⟨cookieValid, mac2⟩ := cookieVerify_ok c p (calcCookie c wg.cookieSecret.val addr.octets)
      cases cookieValid with
      | true =>
        exact ⟨.pass, loadMonitor, by simp [checkMessage, size, verified, load, mac2], fun _ => size,
          by simp⟩
      | false =>
        obtain ⟨peerId, slice, _⟩ := sliceArray_eq p 4 4 (by omega)
        obtain ⟨mac1, mac⟩ := getMac1_ok (size ▸ long)
        exact ⟨.reply _, loadMonitor,
          by simp [checkMessage, size, verified, load, mac2, slice, mac], fun _ => size,
          fun _ same => ⟨peerId, mac1, (Checked.reply.inj same).symm⟩⟩

theorem acceptInitiation_stale {wg : WgState HS} {r : InitProcessResult HS} {peer0 : PeerRef}
    (old : r.timestamp.newer (wg.peers peer0).lastHandshake = false) (env : Env) (p : Bytes)
    (addr : SocketAddrV6) : wg.acceptInitiation c env p addr r peer0 =
      .ok (wg.setPeerState peer0 ((wg.peers peer0).countRecv p.length), []) := by
  have counted : r.timestamp.newer ((wg.peers peer0).countRecv p.length).lastHandshake = false := old
  simp [acceptInitiation, counted]

theorem init_refused {wg : WgState HS} {env : Env} {p : Bytes} {addr : SocketAddrV6}
    (refused : ∀ r rs peer0, ¬ AcceptsInit c wg env p addr r rs peer0)
    (keyed : ∀ r next, wg.checkMessage c env p addr HANDSHAKE_INIT_LEN = .ok (.pass, next) →
      processInitiation c wg.info p = .ok (some r) → (c.getRs r.handshakeState).isSome) :
    Refuses c wg env p addr (wg.udpProcessHandshakeInit c env p addr) := by
  obtain ⟨checked, loadMonitor, check, size, reply⟩ :=
    checkMessage_spec c wg env p addr (show 32 ≤ HANDSHAKE_INIT_LEN by decide)
  have touched := NoEffect.loadMonitor wg loadMonitor
  cases checked with
  | drop => exact ⟨_, [], by simp [udpProcessHandshakeInit, check], touched, .inl rfl⟩
  | reply msg =>
    have len := size (by simp)
    exact ⟨_, _, by simp [udpProcessHandshakeInit, check], touched,
      .inr ⟨msg, rfl, reply msg rfl, by rw [len]; simp [HANDSHAKE_INIT_LEN]⟩⟩
  | pass =>
    obtain ⟨result, processed⟩ := processInitiation_ok c wg.info (size (by simp))
    cases result with
    | none => exact ⟨_, [], by simp [udpProcessHandshakeInit, check, processed], touched, .inl rfl⟩
    | some r =>
      obtain ⟨rs, key⟩ := Option.isSome_iff_exists.mp (keyed r _ check processed)
      cases found : wg.findPeerByPubkey rs with
      | none =>
        refine ⟨{ wg with loadMonitor }, [], ?_, touched, .inl rfl⟩
        have same : findPeerByPubkey { wg with loadMonitor } rs = none := found
        simp [udpProcessHandshakeInit, check, processed, key, same]
      | some peer0 =>
        have old : r.timestamp.newer (wg.peers peer0).lastHandshake = false := by
          by_contra new
          exact refused r rs peer0 ⟨⟨_, check⟩, processed, key, found, by simpa using new⟩
        have same : findPeerByPubkey { wg with loadMonitor } rs = some peer0 := found
        have sameOld : r.timestamp.newer (WgState.peers { wg with loadMonitor } peer0).lastHandshake =
          false := old
        have stale := acceptInitiation_stale c sameOld env p addr
        exact ⟨_, [], by simp [udpProcessHandshakeInit, check, processed, key, same, stale],
          touched.trans (.countRecv _ peer0 p.length), .inl rfl⟩

theorem resp_refused {wg : WgState HS} {env : Env} {p : Bytes} {addr : SocketAddrV6}
    (refused : ∀ selfId peer0, ¬ AcceptsResp c wg env p addr selfId peer0) :
    Refuses c wg env p addr (wg.udpProcessHandshakeResp c env p addr) := by
  obtain ⟨checked, loadMonitor, check, size, reply⟩ :=
    checkMessage_spec c wg env p addr (show 32 ≤ HANDSHAKE_RESP_LEN by decide)
  have touched := NoEffect.loadMonitor wg loadMonitor
  cases checked with
  | drop => exact ⟨_, [], by simp [udpProcessHandshakeResp, check], touched, .inl rfl⟩
  | reply msg =>
    have len := size (by simp)
    exact ⟨_, _, by simp [udpProcessHandshakeResp, check], touched,
      .inr ⟨msg, rfl, reply msg rfl, by rw [len]; simp [HANDSHAKE_RESP_LEN]⟩⟩
  | pass =>
    have len := size (by simp)
    obtain ⟨selfId, index, _⟩ := sliceArray_eq p 8 4 (by rw [len]; decide)
    cases found : wg.findPeerById selfId with
    | none =>
      have same : findPeerById { wg with loadMonitor } selfId = none := found
      exact ⟨_, [], by simp [udpProcessHandshakeResp, check, index, same], touched, .inl rfl⟩
    | some peer0 =>
      have same : findPeerById { wg with loadMonitor } selfId = some peer0 := found
      suffices unverified : verifyResponse c { wg with loadMonitor } p selfId peer0 =
          .ok (none, { wg with loadMonitor }.setPeerState peer0
            ((wg.peers peer0).countRecv p.length)) from
        ⟨_, [], by simp [udpProcessHandshakeResp, check, index, same, unverified],
          touched.trans (.countRecv _ peer0 p.length), .inl rfl⟩
      have counted : ((wg.peers peer0).countRecv p.length).handshake = (wg.peers peer0).handshake := rfl
      cases pending : (wg.peers peer0).handshake with
      | none => simp [verifyResponse, counted, pending]
      | some handshake =>
        by_cases mine : handshake.selfId = selfId
        · obtain ⟨result, processed⟩ := processResponse_ok c handshake.hs len
          cases result with
          | none => simp [verifyResponse, counted, pending, mine, processed]
          | some result =>
            exact absurd ⟨⟨_, check⟩, index, found, handshake, result, pending, mine, processed⟩
              (refused selfId peer0)
        · simp [verifyResponse, counted, pending, mine]

theorem transport_refused {wg : WgState HS} {p : Bytes}
    (refused : ∀ selfId peer0, ¬ AcceptsTransport c wg p selfId peer0) (env : Env)
    (addr : SocketAddrV6) : Refuses c wg env p addr (wg.udpProcessTransport c env p addr) := by
  by_cases short : p.length < 32
  · exact ⟨wg, [], by simp [udpProcessTransport, short], .refl wg, .inl rfl⟩
  obtain ⟨selfId, index, _⟩ := sliceArray_eq p 4 4 (by omega)
  cases found : wg.findPeerById selfId with
  | none => exact ⟨wg, [], by simp [udpProcessTransport, short, index, found], .refl wg, .inl rfl⟩
  | some peer0 =>
    rcases decideTransport_cases c wg env p addr selfId peer0 with
      ⟨t, h, plain, session, opens, _⟩ | ⟨_, decided⟩
    · exact absurd ⟨index, found, t, (h, plain), session, opens⟩ (refused selfId peer0)
    · exact ⟨_, [], by simp [udpProcessTransport, short, index, found, decided, carryOut],
        .countRecv wg peer0 p.length, .inl rfl⟩

theorem cookie_refused {wg : WgState HS} (env : Env) {p : Bytes} (long : 8 ≤ p.length)
    (refused : ∀ selfId peer0, ¬ AcceptsCookie c wg p selfId peer0) :
    ∃ next, wg.udpProcessCookieReply c env p = .ok next ∧ NoEffect wg next := by
  obtain ⟨selfId, index, _⟩ := sliceArray_eq p 4 4 (by omega)
  cases found : wg.findPeerById selfId with
  | none => exact ⟨wg, by simp [udpProcessCookieReply, index, found], .refl wg⟩
  | some peer0 =>
    refine ⟨_, ?_, .countRecv wg peer0 p.length⟩
    have counted : ((wg.peers peer0).countRecv p.length).lastMac1 = (wg.peers peer0).lastMac1 := rfl
    have key : ((wg.peers peer0).countRecv p.length).info = (wg.peers peer0).info := rfl
    cases mac : (wg.peers peer0).lastMac1 with
    | none => simp [udpProcessCookieReply, acceptCookieReply, index, found, counted, mac]
    | some mac1 =>
      obtain ⟨result, processed⟩ := processCookieReply_ok c (wg.peers peer0).info.publicKey mac1 p
      cases result with
      | none => simp [udpProcessCookieReply, acceptCookieReply, index, found, counted, key, mac, processed]
      | some cookie =>
        exact absurd ⟨index, found, mac1, cookie, mac, processed⟩ (refused selfId peer0)

/-- Nothing in the message is accepted by the handler that it is dispatched to. -/
structure Unaccepted (wg : WgState HS) (env : Env) (p : Bytes) (addr : SocketAddrV6) : Prop where
  init : p.getD 0 0 = 1 → ∀ r rs peer0, ¬ AcceptsInit c wg env p addr r rs peer0
  keyed : p.getD 0 0 = 1 → ∀ r next,
    wg.checkMessage c env p addr HANDSHAKE_INIT_LEN = .ok (.pass, next) →
    processInitiation c wg.info p = .ok (some r) → (c.getRs r.handshakeState).isSome
  resp : p.getD 0 0 = 2 → ∀ selfId peer0, ¬ AcceptsResp c wg env p addr selfId peer0
  cookie : p.getD 0 0 = 3 → ∀ selfId peer0, ¬ AcceptsCookie c wg p selfId peer0
  transport : p.getD 0 0 = 4 → ∀ selfId peer0, ¬ AcceptsTransport c wg p selfId peer0

theorem udpProcessing_refused {wg : WgState HS} {env : Env} {datagram : Bytes} {addr : SocketAddrV6}
    (unaccepted : Unaccepted c wg env (datagram.take BUFSIZE) addr) :
    Refuses c wg env (datagram.take BUFSIZE) addr (wg.udpProcessing c env datagram addr) := by
  simp only [udpProcessing]
  generalize datagram.take BUFSIZE = p at unaccepted ⊢
  by_cases short : p.length < 12
  · rw [if_pos short]
    exact ⟨wg, [], rfl, .refl wg, .inl rfl⟩
  rw [if_neg short]
  by_cases one : p.getD 0 0 = 1
  · rw [if_pos one]
    exact init_refused c (unaccepted.init one) (unaccepted.keyed one)
  rw [if_neg one]
  by_cases two : p.getD 0 0 = 2
  · rw [if_pos two]
    exact resp_refused c (unaccepted.resp two)
  rw [if_neg two]
  by_cases three : p.getD 0 0 = 3
  · rw [if_pos three]
    obtain ⟨next, ok, noEffect⟩ := cookie_refused c env (by omega) (unaccepted.cookie three)
    exact ⟨next, [], by simp [ok], noEffect, .inl rfl⟩
  rw [if_neg three]
  by_cases four : p.getD 0 0 = 4
  · rw [if_pos four]
    exact transport_refused c (unaccepted.transport four) env addr
  rw [if_neg four]
  exact ⟨wg, [], rfl, .refl wg, .inl rfl⟩

/-- No cryptographic opening of a message under the keys of the state succeeds. -/
structure Forged (wg : WgState HS) (p : Bytes) : Prop where
  init : c.readMessage (responderState c wg.info.key) (sub p 8 116) 12 = none
  resp : ∀ ref handshake, (wg.peers ref).handshake = some handshake →
    c.readMessage handshake.hs (sub p 12 60) 0 = none
  cookie : ∀ ref mac1 nonce ct, (wg.peers ref).lastMac1 = some mac1 →
    sliceArray p 8 24 = .ok nonce → sliceArray p 32 32 = .ok ct →
    XChaCha20Poly1305.decrypt c (cookieKey c (wg.peers ref).info.publicKey) nonce mac1.val ct.val = none
  transport : ∀ ref, ∀ t ∈ (wg.peers ref).transports.val,
    ChaCha20Poly1305.decrypt c t.recvKey (Transport.counterOf p) [] (Transport.payloadOf p) = none

theorem Forged.unaccepted {wg : WgState HS} {p : Bytes} (forged : Forged c wg p) (env : Env)
    (addr : SocketAddrV6) : Unaccepted c wg env p addr where
  init _ r rs peer0 accepts := by
    obtain ⟨_, read, _⟩ := processInitiation_some c accepts.opened
    simp [forged.init] at read
  keyed _ r _ _ processed := by
    obtain ⟨_, read, _⟩ := processInitiation_some c processed
    simp [forged.init] at read
  resp _ selfId peer0 accepts := by
    obtain ⟨handshake, _, pending, _, processed⟩ := accepts.verified
    obtain ⟨_, read⟩ := processResponse_some c processed
    simp [forged.resp peer0 handshake pending] at read
  cookie _ selfId peer0 accepts := by
    obtain ⟨mac1, _, mac, processed⟩ := accepts.opened
    obtain ⟨nonce, ct, nonceSlice, ctSlice, opens⟩ := processCookieReply_some c processed
    simp [forged.cookie peer0 mac1 nonce ct mac nonceSlice ctSlice] at opens
  transport _ selfId peer0 accepts := by
    obtain ⟨t, result, session, opens⟩ := accepts.decrypted
    obtain ⟨_, _, ⟨plain, open_, _⟩, _⟩ :=
      Transport.decrypt_eq_some c (show _ = some (result.1, result.2) from opens)
    simp [forged.transport peer0 t (List.mem_of_find?_eq_some session)] at open_

/-- Forged datagrams have no effect. -/
theorem forged_no_effect (wg : WgState HS) (env : Env) (datagram : Bytes) (addr : SocketAddrV6)
    (forged : Forged c wg (datagram.take BUFSIZE)) :
    ∃ next outputs, wg.udpProcessing c env datagram addr = .ok (next, outputs) ∧ NoEffect wg next ∧
      (outputs = [] ∨ ∃ msg, outputs = [.sendTo msg.val addr] ∧ IsCookieReply c wg env addr msg ∧
        msg.val.length < datagram.length) := by
  obtain ⟨next, outputs, ok, noEffect, harmless⟩ :=
    udpProcessing_refused c (forged.unaccepted c env addr)
  refine ⟨next, outputs, ok, noEffect, harmless.imp_right fun ⟨msg, sent, reply, shorter⟩ => ?_⟩
  exact ⟨msg, sent, reply, Nat.lt_of_lt_of_le shorter (List.length_take_le' _ _)⟩

def sampleForgery : Bytes :=
  [1, 0, 0, 0] ++ List.replicate 112 1 ++ List.replicate 16 0 ++ List.replicate 16 1

theorem forged_no_effect_initiation :
    ∃ next outputs, sampleReceiver.udpProcessing Crypto.transparent
        { sampleEnv with interopTest := true } sampleForgery sampleAddr = .ok (next, outputs) ∧
      NoEffect sampleReceiver next ∧
      (outputs = [] ∨ ∃ msg, outputs = [.sendTo msg.val sampleAddr] ∧
        IsCookieReply Crypto.transparent sampleReceiver { sampleEnv with interopTest := true }
          sampleAddr msg ∧ msg.val.length < sampleForgery.length) := by
  have whole : sampleForgery.take BUFSIZE = sampleForgery :=
    List.take_of_length_le (by simp [sampleForgery, BUFSIZE])
  have forged : Forged Crypto.transparent sampleReceiver (sampleForgery.take BUFSIZE) := by
    rw [whole]
    refine ⟨by decide +kernel, fun _ _ pending => (by cases pending),
      fun _ _ _ _ mac => (by cases mac), fun _ t session => ?_⟩
    obtain rfl := List.mem_singleton.mp session
    decide +kernel
  exact forged_no_effect Crypto.transparent _ _ _ _ forged

end WgState

end Titun
