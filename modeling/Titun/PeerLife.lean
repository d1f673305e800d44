import Titun.Lib.Transition
import Titun.PeerTasks

/-! The life of a peer: the timers, the counters and what they depend on, as a machine of its own. -/
namespace Titun

open Transition

/-- What the timers and the counters of a peer see of it. -/
structure Life where
  interval : Option NonZeroU16
  /-- There is a resend scope. -/
  handshaking : Bool
  /-- When the sessions were made, the newest first. -/
  sessions : List Instant
  rxBytes : BitVec 64
  txBytes : BitVec 64
  rekeyNoRecv : TimerHandle
  keepalive : TimerHandle
  persistentKeepalive : TimerHandle
  stopHandshake : TimerHandle
  clearTimer : TimerHandle
  deriving DecidableEq

/-- What happens to a peer. -/
inductive PeerEvent where
  /-- A datagram is counted, whether it is accepted or not. -/
  | received (datagram : Bytes)
  | sent (datagram : Output)
  /-- Something that is not a keep-alive was sent on a session. -/
  | sendTransport
  | sendKeepalive
  /-- A transport message was accepted. -/
  | recv (isKeepalive : Bool)
  /-- A handshake made a session. -/
  | established
  /-- The handshake was started on this side, and nothing is queued for the session. -/
  | unconfirmed
  /-- A packet waits for a session. -/
  | queued
  | handshakeStarted
  | scopeDropped
  | cleared
  /-- The end of `persistent_keepalive`. -/
  | rearmed
  | polled (kind : TimerKind) (fires : Bool)
  | intervalSet (interval : BitVec 16)
  deriving DecidableEq

def Output.size : Output → Nat
  | sendTo buf _ => buf.length
  | tunWrite _ => 0

namespace Life

def new (now : Instant) : Life where
  interval := none
  handshaking := false
  sessions := []
  rxBytes := 0
  txBytes := 0
  rekeyNoRecv := .new now
  keepalive := .new now
  persistentKeepalive := .new now
  stopHandshake := .new now
  clearTimer := .new now

def timer (l : Life) : TimerKind → TimerHandle
  | .rekeyNoRecv => l.rekeyNoRecv
  | .keepalive => l.keepalive
  | .persistentKeepalive => l.persistentKeepalive
  | .stopHandshake => l.stopHandshake
  | .clear => l.clearTimer

def setTimer (l : Life) (t : TimerHandle) : TimerKind → Life
  | .rekeyNoRecv => { l with rekeyNoRecv := t }
  | .keepalive => { l with keepalive := t }
  | .persistentKeepalive => { l with persistentKeepalive := t }
  | .stopHandshake => { l with stopHandshake := t }
  | .clear => { l with clearTimer := t }

/-- Anything that is sent puts the next persistent keep-alive off. -/
def rearm (l : Life) (now : Instant) : TimerHandle :=
  match l.interval with
  | none => l.persistentKeepalive
  | some i => l.persistentKeepalive.adjustAndActivateSecs now i.val.toNat

/-- The timers and the counters after an event. -/
def after (l : Life) (now : Instant) : PeerEvent → Life
  | .received datagram => { l with rxBytes := l.rxBytes + BitVec.ofNat 64 datagram.length }
  | .sent datagram => { l with txBytes := l.txBytes + BitVec.ofNat 64 datagram.size }
  | .sendTransport =>
    { l with
      keepalive := l.keepalive.deActivate
      rekeyNoRecv := l.rekeyNoRecv.adjustAndActivateIfNotActivated now (KEEPALIVE_TIMEOUT + REKEY_TIMEOUT)
      persistentKeepalive := l.rearm now }
  | .sendKeepalive => { l with keepalive := l.keepalive.deActivate, persistentKeepalive := l.rearm now }
  | .recv isKeepalive =>
    { l with
      rekeyNoRecv := l.rekeyNoRecv.deActivate
      keepalive :=
        if isKeepalive then l.keepalive else l.keepalive.adjustAndActivateIfNotActivated now KEEPALIVE_TIMEOUT }
  | .established =>
    { l with
      handshaking := false
      sessions := now :: l.sessions.take 2
      stopHandshake := l.stopHandshake.deActivate
      clearTimer := l.clearTimer.adjustAndActivateSecs now (3 * REJECT_AFTER_TIME) }
  | .unconfirmed => { l with keepalive := l.keepalive.adjustAndActivateSecs now 1 }
  | .queued => { l with stopHandshake := l.stopHandshake.adjustAndActivateSecs now REKEY_ATTEMPT_TIME }
  | .handshakeStarted =>
    { l with
      handshaking := true
      stopHandshake := l.stopHandshake.adjustAndActivateIfNotActivated now REKEY_ATTEMPT_TIME
      clearTimer := l.clearTimer.adjustAndActivateIfNotActivated now (3 * REJECT_AFTER_TIME) }
  | .scopeDropped => { l with handshaking := false }
  | .cleared =>
    { l with
      handshaking := false
      sessions := []
      rekeyNoRecv := l.rekeyNoRecv.deActivate
      keepalive := l.keepalive.deActivate
      clearTimer := l.clearTimer.deActivate }
  | .rearmed => { l with persistentKeepalive := l.rearm now }
  | .polled kind _ => l.setTimer ((l.timer kind).poll now).2 kind
  | .intervalSet interval =>
    if l.interval ≠ NonZeroU16.new interval then
      { l with
        interval := NonZeroU16.new interval
        persistentKeepalive :=
          if interval > 0 then l.persistentKeepalive.adjustAndActivateSecs now 5
          else l.persistentKeepalive.deActivate }
    else l

/-- A poll finds out whether the timer fires. -/
def Allows (l : Life) (now : Instant) : PeerEvent → Prop
  | .polled kind fires => ((l.timer kind).poll now).1 = fires
  | _ => True

def Step (l : Life) (o : Instant × PeerEvent) (next : Life) : Prop := l.Allows o.1 o.2 ∧ next = l.after o.1 o.2

def Passes (l : Life) (now : Instant) (events : List PeerEvent) (next : Life) : Prop :=
  Run Step l (events.map fun e => (now, e)) next

theorem Passes.nothing (l : Life) (now : Instant) : l.Passes now [] l := .nil

theorem Passes.one {l next : Life} {now : Instant} {e : PeerEvent} (allowed : l.Allows now e)
    (same : next = l.after now e) : l.Passes now [e] next := .cons ⟨allowed, same⟩ .nil

theorem Passes.append {l middle next : Life} (first : l.Passes now xs middle) (second : middle.Passes now ys next) :
    l.Passes now (xs ++ ys) next := by
  rw [Passes, List.map_append]
  exact Run.append first second

theorem Passes.cons {l next : Life} (allowed : l.Allows now e) (rest : (l.after now e).Passes now es next) :
    l.Passes now (e :: es) next := .append (.one allowed rfl) rest

theorem Passes.sent (l : Life) (now : Instant) (datagrams : List Output) :
    l.Passes now (datagrams.map .sent)
      { l with txBytes := l.txBytes + BitVec.ofNat 64 (datagrams.map Output.size).sum } := by
  induction datagrams generalizing l with
  | nil => simpa using Passes.nothing l now
  | cons datagram rest ih =>
    have later := ih (l.after now (.sent datagram))
    simp only [after, BitVec.add_assoc, ← BitVec.ofNat_add] at later
    exact .cons trivial later

end Life

namespace PeerState

variable {HS : Type}

def life (p : PeerState HS) : Life where
  interval := p.info.keepalive
  handshaking := p.handshakeResendScope.isSome
  sessions := p.transports.val.map Transport.created
  rxBytes := p.rxBytes
  txBytes := p.txBytes
  rekeyNoRecv := p.rekeyNoRecv
  keepalive := p.keepalive
  persistentKeepalive := p.persistentKeepalive
  stopHandshake := p.stopHandshake
  clearTimer := p.clearTimer

theorem life_new (publicKey : X25519Pubkey) (now : Instant) :
    (new publicKey now : PeerState HS).life = .new now := rfl

theorem life_countRecv (p : PeerState HS) (now : Instant) (datagram : Bytes) :
    (p.countRecv datagram.length).life = p.life.after now (.received datagram) := rfl

theorem life_countSend (p : PeerState HS) (now : Instant) (datagram : Bytes) (addr : SocketAddrV6) :
    (p.countSend datagram.length).life = p.life.after now (.sent (.sendTo datagram addr)) := rfl

theorem life_onSendTransport (p : PeerState HS) (now : Instant) :
    (p.onSendTransport now).life = p.life.after now .sendTransport := rfl

theorem life_onSendKeepalive (p : PeerState HS) (now : Instant) :
    (p.onSendKeepalive now).life = p.life.after now .sendKeepalive := rfl

theorem life_onRecv (p : PeerState HS) (now : Instant) (isKeepalive : Bool) :
    (p.onRecv now isKeepalive).life = p.life.after now (.recv isKeepalive) := rfl

theorem life_enqueuePacket (p : PeerState HS) (now : Instant) (packet : Bytes) :
    (p.enqueuePacket now packet).life = p.life.after now .queued := by
  simp only [enqueuePacket, life, Life.after]

theorem life_clear (p : PeerState HS) (now : Instant) : p.clear.2.life = p.life.after now .cleared := rfl

theorem life_transports (p : PeerState HS) {transports : ArrayVec Transport 3}
    (same : transports.val.map Transport.created = p.transports.val.map Transport.created) :
    ({ p with transports } : PeerState HS).life = p.life := by
  simp only [life, same]

theorem life_establish (p : PeerState HS) {now : Instant} (t : Transport) (made : t.created = now)
    (handshake : Option (Handshake HS)) :
    ({ (p.pushTransport now t).2 with handshake, handshakeResendScope := none } : PeerState HS).life =
      p.life.after now .established := by
  have sessions : (p.transports.pushFront t).2.val.map Transport.created =
      now :: (p.transports.val.map Transport.created).take 2 := by
    rw [ArrayVec.pushFront_take, List.map_cons, List.map_take, made]
  simp only [life, pushTransport, onNewTransport, sessions, Life.after, Option.isSome_none]

theorem life_setTimer (p : PeerState HS) (now : Instant) (kind : TimerKind) (fires : Bool) :
    (p.setTimer ((p.timer kind).poll now).2 kind).life = p.life.after now (.polled kind fires) := by
  cases kind <;> rfl

end PeerState

end Titun
