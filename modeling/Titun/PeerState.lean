import Titun.Handshake
import Titun.Lib.ArrayVec
import Titun.Timer
import Titun.Transport

/-! The state of one peer. A pending handshake and each session own the guard of their id;
methods that drop guards return the ids, for the caller to take out of the id map. -/
namespace Titun

def QUEUE_SIZE : Nat := 16

structure Handshake (HS : Type) where
  selfId : WgId
  hs : HS
  deriving DecidableEq

/-- Tells the task of one resend loop from those of others. -/
abbrev ScopeId := Nat

structure PeerState (HS : Type) where
  info : PeerInfo
  lastHandshake : Option TAI64N
  cookie : Option (Cookie × Instant)
  lastMac1 : Option (U8Array 16)
  handshake : Option (Handshake HS)
  handshakeResendScope : Option ScopeId
  rxBytes : BitVec 64
  txBytes : BitVec 64
  queue : List Bytes
  transports : ArrayVec Transport 3
  /-- Rekey because of send but not recv in... -/
  rekeyNoRecv : TimerHandle
  /-- Keep alive because of recv but not send in... -/
  keepalive : TimerHandle
  persistentKeepalive : TimerHandle
  /-- Stop handshake after `REKEY_ATTEMPT_TIME`. -/
  stopHandshake : TimerHandle
  /-- Clear all sessions if no new handshake in `REJECT_AFTER_TIME * 3`. -/
  clearTimer : TimerHandle
  deriving DecidableEq

namespace PeerState

variable {HS : Type}

/-- The peer that `wg_add_peer` adds. -/
def new (publicKey : X25519Pubkey) (now : Instant) : PeerState HS where
  info :=
    { publicKey, psk := none, endpoint := none, allowedIps := ∅, keepalive := none, roaming := true }
  lastHandshake := none
  cookie := none
  lastMac1 := none
  handshake := none
  handshakeResendScope := none
  rxBytes := 0
  txBytes := 0
  queue := []
  transports := .empty
  rekeyNoRecv := .new now
  keepalive := .new now
  persistentKeepalive := .new now
  stopHandshake := .new now
  clearTimer := .new now

def handshakeIds (p : PeerState HS) : List WgId := (p.handshake.map Handshake.selfId).toList

/-- The ids whose guards the peer owns. -/
def ownedIds (p : PeerState HS) : List WgId := p.handshakeIds ++ p.transports.val.map Transport.selfId

def getEndpoint (p : PeerState HS) : Option SocketAddrV6 := p.info.endpoint

def setEndpoint (p : PeerState HS) (a : SocketAddrV6) : Exec (PeerState HS) := do
  assert p.info.roaming
  return { p with info := { p.info with endpoint := some a } }

/-- The endpoint follows a peer that roams. -/
def roam (p : PeerState HS) (a : SocketAddrV6) : Exec (PeerState HS) :=
  if p.info.roaming then p.setEndpoint a else .ok p

def getCookie (p : PeerState HS) (now : Instant) : Option Cookie :=
  match p.cookie with
  | none => none
  | some (cookie, received) => if now - received ≥ secs 120 then none else some cookie

def clear (p : PeerState HS) : List WgId × PeerState HS :=
  (p.ownedIds,
    { p with
      handshake := none
      handshakeResendScope := none
      transports := .empty
      queue := []
      rekeyNoRecv := p.rekeyNoRecv.deActivate
      keepalive := p.keepalive.deActivate
      clearTimer := p.clearTimer.deActivate })

def onNewTransport (p : PeerState HS) (now : Instant) : PeerState HS :=
  { p with
    stopHandshake := p.stopHandshake.deActivate
    clearTimer := p.clearTimer.adjustAndActivateSecs now (3 * REJECT_AFTER_TIME) }

def countRecv (p : PeerState HS) (size : Nat) : PeerState HS :=
  { p with rxBytes := p.rxBytes + BitVec.ofNat 64 size }

def countSend (p : PeerState HS) (size : Nat) : PeerState HS :=
  { p with txBytes := p.txBytes + BitVec.ofNat 64 size }

def onRecv (p : PeerState HS) (now : Instant) (isKeepalive : Bool) : PeerState HS :=
  { p with
    rekeyNoRecv := p.rekeyNoRecv.deActivate
    keepalive :=
      if isKeepalive then p.keepalive
      else p.keepalive.adjustAndActivateIfNotActivated now KEEPALIVE_TIMEOUT }

/-- The persistent keep-alive timer after anything is sent. -/
def rearmPersistentKeepalive (p : PeerState HS) (now : Instant) : TimerHandle :=
  match p.info.keepalive with
  | none => p.persistentKeepalive
  | some i => p.persistentKeepalive.adjustAndActivateSecs now i.val.toNat

def onSendTransport (p : PeerState HS) (now : Instant) : PeerState HS :=
  { p with
    keepalive := p.keepalive.deActivate
    rekeyNoRecv :=
      p.rekeyNoRecv.adjustAndActivateIfNotActivated now (KEEPALIVE_TIMEOUT + REKEY_TIMEOUT)
    persistentKeepalive := p.rearmPersistentKeepalive now }

def onSendKeepalive (p : PeerState HS) (now : Instant) : PeerState HS :=
  { p with
    keepalive := p.keepalive.deActivate
    persistentKeepalive := p.rearmPersistentKeepalive now }

/-- Returns also the id of the session that made room. -/
def pushTransport (p : PeerState HS) (now : Instant) (t : Transport) : List WgId × PeerState HS :=
  let p := p.onNewTransport now
  let (popped, transports) := p.transports.pushFront t
  ((popped.map Transport.selfId).toList, { p with transports })

/-- Do we have a transport where we are responder, that is very young and not confirmed. -/
def haveFreshUnconfirmedTransport (p : PeerState HS) (now : Instant) : Bool :=
  p.transports.val.any fun t => !t.isInitiator && decide (now - t.created < secs 10)

def reallyShouldHandshake (p : PeerState HS) (now : Instant) : Bool :=
  p.handshakeResendScope.isNone && !p.haveFreshUnconfirmedTransport now

def findTransportToSend (p : PeerState HS) : Option Transport :=
  p.transports.val.find? Transport.getShouldSend

def findTransportById (p : PeerState HS) (id : WgId) : Option Transport :=
  p.transports.val.find? fun t => t.selfId = id

/-- The session found by `findTransportToSend` changes in place. -/
def setTransportToSend (p : PeerState HS) (t : Transport) : PeerState HS :=
  { p with transports := p.transports.replaceFirst Transport.getShouldSend t }

/-- The session found by `findTransportById` changes in place. -/
def setTransportById (p : PeerState HS) (id : WgId) (t : Transport) : PeerState HS :=
  { p with transports := p.transports.replaceFirst (fun t => t.selfId = id) t }

/-- The loop in the source pops the front while the queue is full. -/
def enqueuePacket (p : PeerState HS) (now : Instant) (packet : Bytes) : PeerState HS :=
  { p with
    stopHandshake := p.stopHandshake.adjustAndActivateSecs now REKEY_ATTEMPT_TIME
    queue := p.queue.drop (p.queue.length + 1 - QUEUE_SIZE) ++ [packet] }

/-- Counts packets that are about to be sent in messages of their own. -/
def countPackets (p : PeerState HS) (packets : List Bytes) : PeerState HS :=
  packets.foldl (fun p packet => p.countSend (packet.length + 32)) p

def dequeueAll (p : PeerState HS) : List Bytes × PeerState HS := (p.queue, { p with queue := [] })

end PeerState

end Titun
