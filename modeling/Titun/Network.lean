import Titun.HandshakeMessages
import Titun.Refusal
import Titun.PeerTasks

/-! Two daemons that make handshakes with each other, over a network that loses nothing but delivers
in any order. -/
namespace Titun

inductive Side where
  | left
  | right
  deriving DecidableEq

namespace Side

def other : Side → Side
  | left => right
  | right => left

@[simp] theorem other_other (x : Side) : x.other.other = x := by
  cases x <;> rfl

theorem other_ne (x : Side) : x.other ≠ x := by
  cases x <;> decide

theorem eq_or_other (x y : Side) : y = x ∨ y = x.other := by
  cases x <;> cases y <;> simp [other]

end Side

/-- The keys and addresses of the two sides, and where each keeps what it knows of the other. -/
structure Link where
  key : Side → X25519Key
  psk : Option (U8Array 32)
  addr : Side → SocketAddrV6
  peer : Side → PeerRef

structure Datagram where
  source : SocketAddrV6
  target : SocketAddrV6
  bytes : Bytes
  deriving DecidableEq

/-- An initiation or a response, by its type. -/
def Datagram.IsHandshake (d : Datagram) : Prop := d.bytes.getD 0 0 = 1 ∨ d.bytes.getD 0 0 = 2

/-- The datagrams that an operation sends from an address. -/
def datagrams (source : SocketAddrV6) (outputs : List Output) : List Datagram :=
  outputs.filterMap fun
    | .sendTo buf target => some ⟨source, target, buf⟩
    | .tunWrite _ => none

structure Network (HS : Type) where
  wg : Side → WgState HS
  inFlight : List Datagram

namespace Network

variable {HS : Type} (c : Crypto HS) (link : Link)

/-- What a side knows of the other. -/
def about (s : Network HS) (x : Side) : PeerState HS := (s.wg x).peers (link.peer x)

/-- A side moves on, and its datagrams are under way. -/
def move (s : Network HS) (x : Side) (wg : WgState HS) (outputs : List Output) : Network HS :=
  ⟨Function.update s.wg x wg, s.inFlight ++ datagrams (link.addr x) outputs⟩

def take (s : Network HS) (d : Datagram) : Network HS := { s with inFlight := s.inFlight.erase d }

inductive Event where
  | doHandshake
  | resend (loop : ResendLoop)
  | cancelLoop (loop : ResendLoop)
  | removeDeferred (id : WgId)
  | handshakeInit (d : Datagram)
  | handshakeResp (d : Datagram)

structure Label where
  side : Side
  event : Event
  env : Env

/-- A side starts or goes on with a handshake, or takes in a handshake message. A loop that was
cancelled may send once more before it ends. -/
inductive Step (s : Network HS) : Label → Network HS → Prop where
  | doHandshake {x : Side} {env : Env} :
    Step s ⟨x, .doHandshake, env⟩ (s.move link x ((s.wg x).doHandshake env (link.peer x)) [])
  | resend {x : Side} {loop : ResendLoop} {env : Env} {wg : WgState HS} {outputs : List Output} :
    loop ∈ (s.wg x).loops → loop.peer = link.peer x → env.time.secs < 2 ^ 64 → env.time.nanos < 10 ^ 9 →
      (s.wg x).resendIteration c env loop = .ok (wg, outputs) →
      Step s ⟨x, .resend loop, env⟩ (s.move link x wg outputs)
  | cancelLoop {x : Side} {loop : ResendLoop} {env : Env} :
    ((s.wg x).peers loop.peer).handshakeResendScope ≠ some loop.scope →
      Step s ⟨x, .cancelLoop loop, env⟩
        (s.move link x { s.wg x with loops := (s.wg x).loops.erase loop } [])
  | removeDeferred {x : Side} {id : WgId} {env : Env} :
    id ∈ (s.wg x).deferred →
      Step s ⟨x, .removeDeferred id, env⟩ (s.move link x ((s.wg x).removeDeferred id) [])
  | handshakeInit {x : Side} {d : Datagram} {env : Env} {wg : WgState HS} {outputs : List Output} :
    d ∈ s.inFlight → d.target = link.addr x → d.bytes.getD 0 0 = 1 →
      (s.wg x).udpProcessHandshakeInit c env d.bytes d.source = .ok (wg, outputs) →
      Step s ⟨x, .handshakeInit d, env⟩ ((s.take d).move link x wg outputs)
  | handshakeResp {x : Side} {d : Datagram} {env : Env} {wg : WgState HS} {outputs : List Output} :
    d ∈ s.inFlight → d.target = link.addr x → d.bytes.getD 0 0 = 2 →
      (s.wg x).udpProcessHandshakeResp c env d.bytes d.source = .ok (wg, outputs) →
      Step s ⟨x, .handshakeResp d, env⟩ ((s.take d).move link x wg outputs)

/-- Two sides without sessions that know each other's keys and addresses. -/
structure Acquainted (s : Network HS) : Prop where
  apart : link.addr .left ≠ link.addr .right
  quiet : s.inFlight = []
  key : ∀ x, (s.wg x).info.key = link.key x
  listed : ∀ x, (s.wg x).pubkeyMap.get (c.publicKey (link.key x.other)) = some (link.peer x)
  publicKey : ∀ x, (s.about link x).info.publicKey = c.publicKey (link.key x.other)
  psk : ∀ x, (s.about link x).info.psk = link.psk
  endpoint : ∀ x, (s.about link x).info.endpoint = some (link.addr x.other)
  handshake : ∀ x, (s.about link x).handshake = none
  transports : ∀ x, (s.about link x).transports.val = []
  idMap : ∀ x id ref, (s.wg x).idMap.get id = some ref → ref = link.peer x

end Network

namespace PeerState

variable {HS : Type}

/-- A handshake of one's own goes on, or has become a session that is still there. -/
def Engaged (p : PeerState HS) : Prop :=
  p.handshakeResendScope.isSome = true ∨ p.handshake.isSome = true ∨
    ∃ t ∈ p.transports.val, t.isInitiator = true

end PeerState

namespace Network

variable {HS : Type} (c : Crypto HS) (link : Link)

/-- Whenever a side accepts an initiation, the other side is engaged, or the side itself keeps a session
that it initiated. -/
def Answered (s : Network HS) (l : Label) : Prop :=
  ∀ d, l.event = .handshakeInit d → ∀ r rs,
    (s.wg l.side).AcceptsInit c l.env d.bytes d.source r rs (link.peer l.side) →
      (s.about link l.side.other).Engaged ∨
        ∃ t ∈ (s.about link l.side).transports.val.take 2, t.isInitiator = true

/-- The last initiation of a cancelled loop is newer than the others, and its id is not in use. -/
def Late (s : Network HS) (l : Label) : Prop :=
  ∀ loop, l.event = .resend loop → (s.about link l.side).handshakeResendScope = none →
    (s.wg l.side).idMap.get l.env.id = none ∧ l.env.id ∉ (s.wg l.side).deferred ∧
    (truncateTimestamp l.env.time).newer (s.about link l.side.other).lastHandshake = true ∧
    ∀ d ∈ s.inFlight, d.target = link.addr l.side.other → ∀ r,
      processInitiation c (s.wg l.side.other).info d.bytes = .ok (some r) →
        (truncateTimestamp l.env.time).newer (some r.timestamp) = true

/-- A handshake that is pending while its loop is cancelled is not put off with a cookie reply. -/
def Served (s : Network HS) (l : Label) : Prop :=
  (∀ d msg next, l.event = .handshakeInit d → (s.about link l.side.other).handshake.isSome = true →
    (s.wg l.side).checkMessage c l.env d.bytes d.source HANDSHAKE_INIT_LEN = .ok (.reply msg, next) →
      (s.about link l.side.other).handshakeResendScope.isSome = true) ∧
  ∀ d msg next, l.event = .handshakeResp d → (s.about link l.side).handshake.isSome = true →
    (s.wg l.side).checkMessage c l.env d.bytes d.source HANDSHAKE_RESP_LEN = .ok (.reply msg, next) →
      (s.about link l.side).handshakeResendScope.isSome = true

end Network

end Titun
