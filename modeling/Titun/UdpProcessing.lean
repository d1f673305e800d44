import Titun.Cookie
import Titun.WgState

/-! What the rx task does with a datagram. -/
namespace Titun

def BUFSIZE : Nat := 65536

/-- What an operation does outside the state: it sends datagrams and writes packets to the
TUN device. -/
inductive Output where
  | sendTo (buf : Bytes) (target : SocketAddrV6)
  | tunWrite (packet : Bytes)
  deriving DecidableEq

namespace WgState

variable {HS : Type} (c : Crypto HS)

def checkHandshakeLoad (wg : WgState HS) (env : Env) : Bool × WgState HS :=
  if env.interopTest then (true, wg)
  else
    let (underLoad, loadMonitor) := wg.loadMonitor.check env.now
    (underLoad, { wg with loadMonitor })

/-- How the checks at the head of both handshake handlers end. -/
inductive Checked where
  | drop
  | reply (msg : U8Array 64)
  | pass
  deriving DecidableEq

/-- The length, `mac1` and, under load, `mac2` of a handshake message of `len` bytes. -/
def checkMessage (wg : WgState HS) (env : Env) (p : Bytes) (addr : SocketAddrV6) (len : Nat) :
    Exec (Checked × WgState HS) := do
  if p.length ≠ len then return (.drop, wg)
  if !(← verifyMac1 c wg.info p) then return (.drop, wg)
  let (underLoad, wg) := wg.checkHandshakeLoad env
  if underLoad then
    let cookie := calcCookie c wg.cookieSecret.val addr.octets
    if !(← cookieVerify c p cookie) then
      let peerId ← sliceArray p 4 4
      let mac1 ← getMac1 p
      return (.reply (cookieReply c (wg.info.pubkey c) cookie peerId mac1 env.nonce), wg)
    else return (.pass, wg)
  else return (.pass, wg)

/-- The part of `udp_process_handshake_init` that runs once the initiation is opened, under
the lock of the peer. -/
def acceptInitiation (wg : WgState HS) (env : Env) (p : Bytes) (addr : SocketAddrV6)
    (r : InitProcessResult HS) (peer0 : PeerRef) : Exec (WgState HS × List Output) := do
  let peer := (wg.peers peer0).countRecv p.length
  if !r.timestamp.newer peer.lastHandshake then return (wg.setPeerState peer0 peer, [])
  let peer := { peer with lastHandshake := some r.timestamp }
  let selfId := env.id
  let r := { r with handshakeState := c.pushPsk r.handshakeState (peer.info.psk.getD (zeros 32)) }
  match ← responde c r selfId env.ephemeral with
  | none => return (wg.setPeerState peer0 peer, [])
  | some (response, hs) =>
    let peer := { peer with lastMac1 := some (← getMac1 response.val) }
    let response := cookieSign c response (peer.getCookie env.now)
    let peer := peer.countSend response.val.length
    let t := Transport.newFromHs c env.now selfId r.peerId hs
    let peer ← peer.roam addr
    let (evicted, peer) := peer.pushTransport env.now t
    let superseded := peer.handshakeIds
    let peer := { peer with handshake := none, handshakeResendScope := none }
    let wg := (wg.setPeerState peer0 peer).dropGuards env (evicted ++ superseded)
    let wg := { wg with idMap := wg.idMap.insert selfId peer0 }
    return (wg, [.sendTo response.val addr])

def udpProcessHandshakeInit (wg : WgState HS) (env : Env) (p : Bytes) (addr : SocketAddrV6) :
    Exec (WgState HS × List Output) := do
  let (checked, wg) ← wg.checkMessage c env p addr HANDSHAKE_INIT_LEN
  match checked with
  | .drop => return (wg, [])
  | .reply msg => return (wg, [.sendTo msg.val addr])
  | .pass =>
    match ← processInitiation c wg.info p with
    | none => return (wg, [])
    | some r =>
      let rPubkey ← unwrap (c.getRs r.handshakeState)
      match wg.findPeerByPubkey rPubkey with
      | none => return (wg, [])
      | some peer0 => wg.acceptInitiation c env p addr r peer0

/-- The first critical section of `udp_process_handshake_resp` with a peer found: the
response is verified against the pending handshake. -/
def verifyResponse (wg : WgState HS) (p : Bytes) (selfId : WgId) (peer0 : PeerRef) :
    Exec (Option (WgId × HS) × WgState HS) := do
  let peer := (wg.peers peer0).countRecv p.length
  let wg := wg.setPeerState peer0 peer
  match peer.handshake with
  | none => return (none, wg)
  | some handshake =>
    if handshake.selfId ≠ selfId then return (none, wg)
    match ← processResponse c handshake.hs p with
    | none => return (none, wg)
    | some result => return (some result, wg)

/-- Sends queued packets on the new session. The output buffer has `BUFSIZE` bytes. -/
def flushQueue (t : Transport) (addr : SocketAddrV6) : List Bytes → Exec (List Output × Transport)
  | [] => return ([], t)
  | p :: packets => do
    if p.length + 32 > BUFSIZE then .error .sliceOutOfRange
    let ((encrypted, _), t) := t.encrypt c p
    let encrypted ← unwrap encrypted
    let (outputs, t) ← flushQueue t addr packets
    return (.sendTo encrypted addr :: outputs, t)

/-- The second critical section: the verified handshake becomes a session. The queued packets are sealed
here; the source seals and sends them on the new session once the lock of the peer is released. -/
def finishSession (wg : WgState HS) (env : Env) (addr : SocketAddrV6) (peerId : WgId) (hs : HS)
    (peer0 : PeerRef) : Exec (WgState HS × List Output) := do
  let peer := wg.peers peer0
  let peer := { peer with handshakeResendScope := none }
  let handle ← unwrap peer.handshake
  let peer := { peer with handshake := none }
  let t := Transport.newFromHs c env.now handle.selfId peerId hs
  let (evicted, peer) := peer.pushTransport env.now t
  let peer ← peer.roam addr
  let (queued, peer) := peer.dequeueAll
  if queued.isEmpty then
    let peer := { peer with keepalive := peer.keepalive.adjustAndActivateSecs env.now 1 }
    return ((wg.setPeerState peer0 peer).dropGuards env evicted, [])
  else
    let peer := (peer.countPackets queued).onSendTransport env.now
    let (outputs, t) ← flushQueue c t addr queued
    -- The session that the packets were sent on is the one at the front.
    let peer := { peer with transports := peer.transports.replaceFirst (fun _ => true) t }
    return ((wg.setPeerState peer0 peer).dropGuards env evicted, outputs)

def insertId (wg : WgState HS) (id : WgId) (peer0 : PeerRef) : WgState HS :=
  { wg with idMap := wg.idMap.insert id peer0 }

/-- What follows once a response is verified. -/
def finishResponse (wg : WgState HS) (env : Env) (addr : SocketAddrV6) (selfId : WgId)
    (peerId : WgId) (hs : HS) (peer0 : PeerRef) : Exec (WgState HS × List Output) :=
  (wg.insertId selfId peer0).finishSession c env addr peerId hs peer0

def udpProcessHandshakeResp (wg : WgState HS) (env : Env) (p : Bytes) (addr : SocketAddrV6) :
    Exec (WgState HS × List Output) := do
  let (checked, wg) ← wg.checkMessage c env p addr HANDSHAKE_RESP_LEN
  match checked with
  | .drop => return (wg, [])
  | .reply msg => return (wg, [.sendTo msg.val addr])
  | .pass =>
    let selfId ← sliceArray p 8 4
    match wg.findPeerById selfId with
    | none => return (wg, [])
    | some peer0 =>
      let (verified, wg) ← wg.verifyResponse c p selfId peer0
      match verified with
      | none => return (wg, [])
      | some (peerId, hs) => wg.finishResponse c env addr selfId peerId hs peer0

/-- The part of `udp_process_cookie_reply` under the lock of the peer. -/
def acceptCookieReply (wg : WgState HS) (env : Env) (p : Bytes) (peer0 : PeerRef) :
    Exec (WgState HS) := do
  let peer := (wg.peers peer0).countRecv p.length
  match peer.lastMac1 with
  | none => return wg.setPeerState peer0 peer
  | some mac1 =>
    match ← processCookieReply c peer.info.publicKey mac1 p with
    | none => return wg.setPeerState peer0 peer
    | some cookie => return wg.setPeerState peer0 { peer with cookie := some (cookie, env.now) }

def udpProcessCookieReply (wg : WgState HS) (env : Env) (p : Bytes) : Exec (WgState HS) := do
  let selfId ← sliceArray p 4 4
  match wg.findPeerById selfId with
  | none => return wg
  | some peer0 => wg.acceptCookieReply c env p peer0

/-- Starts the resend loop of a peer, unless there is one or its endpoint is not known. -/
def doHandshake (wg : WgState HS) (env : Env) (peer0 : PeerRef) : WgState HS :=
  let peer := wg.peers peer0
  if peer.handshakeResendScope.isSome then wg
  else if peer.getEndpoint.isNone then wg
  else
    let scope := wg.nextScope
    let peer :=
      { peer with
        handshakeResendScope := some scope
        stopHandshake :=
          peer.stopHandshake.adjustAndActivateIfNotActivated env.now REKEY_ATTEMPT_TIME
        clearTimer :=
          peer.clearTimer.adjustAndActivateIfNotActivated env.now (3 * REJECT_AFTER_TIME) }
    { wg.setPeerState peer0 peer with
      loops := wg.loops ++ [⟨scope, peer0⟩]
      nextScope := scope + 1 }

/-- The packet in a decrypted message of a peer that is to be written to the TUN device. -/
def packetToWrite (wg : WgState HS) (peer0 : PeerRef) (decrypted : Bytes) : Option Bytes :=
  match parseIpPacket decrypted with
  | none => none
  | some (len, src, _) =>
    -- Reverse path filtering.
    if wg.findPeerByIp src ≠ some peer0 then none
    else if len ≤ decrypted.length then some (decrypted.take len)
    else none

/-- What `udp_process_transport` decides under the lock of the peer. -/
structure Decision where
  write : Option Bytes
  setEndpoint : Bool
  handshake : Bool

/-- The critical section of `udp_process_transport` with a peer found. -/
def decideTransport (wg : WgState HS) (env : Env) (p : Bytes) (addr : SocketAddrV6) (selfId : WgId)
    (peer0 : PeerRef) : Decision × WgState HS :=
  let peer := (wg.peers peer0).countRecv p.length
  match peer.findTransportById selfId with
  | none => (⟨none, false, false⟩, wg.setPeerState peer0 peer)
  | some t =>
    let (result, t) := t.decrypt c p
    let peer := peer.setTransportById selfId t
    match result with
    | none => (⟨none, false, false⟩, wg.setPeerState peer0 peer)
    | some (h, decrypted) =>
      let handshake := h && peer.reallyShouldHandshake env.now
      let peer := peer.onRecv env.now decrypted.isEmpty
      (⟨wg.packetToWrite peer0 decrypted,
        decide (peer.info.endpoint ≠ some addr) && peer.info.roaming, handshake⟩,
        wg.setPeerState peer0 peer)

/-- The peer after a message of `size` bytes has opened as `plain` and was accepted. -/
def received (peer : PeerState HS) (env : Env) (size : Nat) (selfId : WgId) (t : Transport)
    (plain : Bytes) : PeerState HS :=
  ((peer.countRecv size).setTransportById selfId t).onRecv env.now plain.isEmpty

theorem decideTransport_cases (wg : WgState HS) (env : Env) (p : Bytes) (addr : SocketAddrV6)
    (selfId : WgId) (peer0 : PeerRef) :
    (∃ t h plain, (wg.peers peer0).findTransportById selfId = some t ∧
      (t.decrypt c p).1 = some (h, plain) ∧ ∃ handshake,
      wg.decideTransport c env p addr selfId peer0 =
        (⟨wg.packetToWrite peer0 plain, decide ((wg.peers peer0).info.endpoint ≠ some addr) &&
          (wg.peers peer0).info.roaming, handshake⟩,
        wg.setPeerState peer0 (received (wg.peers peer0) env p.length selfId
          (t.accept (Transport.counterOf p)) plain))) ∨
    ((∀ t, (wg.peers peer0).findTransportById selfId = some t → (t.decrypt c p).1 = none) ∧
      wg.decideTransport c env p addr selfId peer0 =
        (⟨none, false, false⟩, wg.setPeerState peer0 ((wg.peers peer0).countRecv p.length))) := by
  have counted : ((wg.peers peer0).countRecv p.length).findTransportById selfId =
      (wg.peers peer0).findTransportById selfId := rfl
  cases found : (wg.peers peer0).findTransportById selfId with
  | none =>
    refine .inr ⟨fun t h => (by cases h), ?_⟩
    simp only [decideTransport, counted, found]
  | some t =>
    cases result : (t.decrypt c p).1 with
    | none =>
      refine .inr ⟨fun _ h => Option.some.inj h ▸ result, ?_⟩
      simp only [decideTransport, counted, found, result, Transport.decrypt_eq_none c result]
      rw [PeerState.setTransportById, ArrayVec.replaceFirst_self (by exact found)]
    | some r =>
      obtain ⟨_, _, _, next⟩ := Transport.decrypt_eq_some c (show _ = some (r.1, r.2) from result)
      refine .inl ⟨t, r.1, r.2, rfl, result, r.1 &&
        (((wg.peers peer0).countRecv p.length).setTransportById selfId
          (t.accept (Transport.counterOf p))).reallyShouldHandshake env.now, ?_⟩
      simp only [decideTransport, counted, found, result, next]
      rfl

/-- What `udp_process_transport` does after it has released the lock. -/
def carryOut (wg : WgState HS) (env : Env) (addr : SocketAddrV6) (peer0 : PeerRef)
    (decision : Decision) : Exec (WgState HS × List Output) := do
  let wg ←
    if decision.setEndpoint then
      ((wg.peers peer0).setEndpoint addr).map (wg.setPeerState peer0)
    else .ok wg
  let wg := if decision.handshake then wg.doHandshake env peer0 else wg
  return (wg, (decision.write.map .tunWrite).toList)

def udpProcessTransport (wg : WgState HS) (env : Env) (p : Bytes) (addr : SocketAddrV6) :
    Exec (WgState HS × List Output) := do
  if p.length < 32 then return (wg, [])
  let selfId ← sliceArray p 4 4
  match wg.findPeerById selfId with
  | none => return (wg, [])
  | some peer0 =>
    let (decision, wg) := wg.decideTransport c env p addr selfId peer0
    wg.carryOut env addr peer0 decision

/-- The dispatch of `udp_processing` on a datagram, of which the buffer takes `BUFSIZE` bytes. -/
def udpProcessing (wg : WgState HS) (env : Env) (datagram : Bytes) (addr : SocketAddrV6) :
    Exec (WgState HS × List Output) := do
  let p := datagram.take BUFSIZE
  if p.length < 12 then return (wg, [])
  let type := p.getD 0 0
  if type = 1 then wg.udpProcessHandshakeInit c env p addr
  else if type = 2 then wg.udpProcessHandshakeResp c env p addr
  else if type = 3 then do
    let wg ← wg.udpProcessCookieReply c env p
    return (wg, [])
  else if type = 4 then wg.udpProcessTransport c env p addr
  else return (wg, [])

end WgState

end Titun
