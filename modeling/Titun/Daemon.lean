import Titun.Lib.Transition
import Titun.PeerTasks
import Titun.Refusal
import Titun.RouteOwnership
import Titun.TunProcessing

/-! The running daemon: complete operations of its tasks and of its users, one at a time and
in any order. -/
namespace Titun

/-- The tasks of a session, both of which run after a delay. -/
inductive SessionTask where
  | expireHandshake
  | expire
  deriving DecidableEq, Repr

namespace SessionTask

def delay (t : Transport) : SessionTask → Nat
  | expireHandshake => t.handshakeAfter
  | expire => secs REJECT_AFTER_TIME

def run : SessionTask → Transport → Transport
  | expireHandshake => Transport.expireHandshake
  | expire => Transport.expire

end SessionTask

/-- Operations, each of which ends before the next one starts. -/
inductive Op where
  | config (op : ConfigOp)
  /-- With the order in which a map is visited. -/
  | setKey (order : HashMap X25519Pubkey PeerRef → List X25519Pubkey) (key : X25519Key)
  | setPort (newPort : BitVec 16) (prepared : Except String (BitVec 16))
  | setFwmark (newFwmark : BitVec 32) (marked : Except String Unit)
  /-- A datagram comes in. -/
  | datagram (bytes : Bytes) (addr : SocketAddrV6)
  /-- A packet comes from the TUN device. -/
  | packet (bytes : Bytes)
  | timer (peer : PeerRef) (kind : TimerKind)
  /-- An iteration of a resend loop. -/
  | resend (loop : ResendLoop)
  | cancelLoop (loop : ResendLoop)
  | session (peer : PeerRef) (i : Nat) (task : SessionTask)
  | removeDeferred (id : WgId)
  /-- An rx task starts. -/
  | startRx
  /-- The rx task takes the socket out of its channel. -/
  | takeSocket
  | updateCookieSecret (secret : U8Array 32)
  | updateMtu (mtu : BitVec 32)

structure Daemon (HS : Type) where
  wg : WgState HS
  /-- The buffer of the tx task. -/
  pkt : Bytes

namespace Daemon

variable {HS : Type}

def start (info : WgInfo) (cookieSecret : U8Array 32) (mtu : BitVec 32) (now : Instant) : Daemon HS :=
  ⟨.new info cookieSecret mtu now, List.replicate BUFSIZE 0⟩

/-- Something refers to a peer, so that its tasks find it. -/
def Alive (wg : WgState HS) (ref : PeerRef) : Prop :=
  (∃ pk, wg.pubkeyMap.get pk = some ref) ∨ (∃ id, wg.idMap.get id = some ref) ∨
    ∃ ip, wg.rt.get ip = some ref

/-- An operation can happen. -/
def Enabled (wg : WgState HS) (env : Env) : Op → Prop
  | .config op => op.Valid
  | .setKey order _ => HashMap.IterOrder wg.pubkeyMap (order wg.pubkeyMap)
  -- Sending on a full channel blocks.
  | .setPort .. => ∀ socket, wg.socketChannel ≠ some (some socket)
  | .packet bytes => bytes.length ≤ BUFSIZE
  | .timer peer _ => Alive wg peer
  | .resend loop => loop ∈ wg.loops ∧ Alive wg loop.peer
  | .cancelLoop loop => loop ∈ wg.loops ∧
      (Alive wg loop.peer → (wg.peers loop.peer).handshakeResendScope ≠ some loop.scope)
  | .session peer i task =>
      ∃ t, (wg.peers peer).transports.val[i]? = some t ∧ t.created + task.delay t ≤ env.now
  | .removeDeferred id => id ∈ wg.deferred
  | .takeSocket => ∃ socket, wg.socketChannel = some (some socket)
  | _ => True

variable (c : Crypto HS)

def perform (s : Daemon HS) (env : Env) : Op → Exec (Daemon HS × List Output)
  | .config op => do
    let wg ← s.wg.applyConfig env op
    return ({ s with wg }, [])
  | .setKey order key => return ({ s with wg := s.wg.setKey env (order s.wg.pubkeyMap) key }, [])
  | .setPort newPort prepared => return ({ s with wg := (s.wg.setPort newPort prepared).2 }, [])
  | .setFwmark newFwmark marked => return ({ s with wg := (s.wg.setFwmark newFwmark marked).2 }, [])
  | .datagram bytes addr => do
    let (wg, outputs) ← s.wg.udpProcessing c env bytes addr
    return ({ s with wg }, outputs)
  | .packet bytes => do
    let (wg, pkt, outputs) ← s.wg.tunPacketProcessing c env s.pkt bytes
    return (⟨wg, pkt⟩, outputs)
  | .timer peer kind =>
    let (wg, outputs) := s.wg.runTimer c env peer kind
    return ({ s with wg }, outputs)
  | .resend loop => do
    let (wg, outputs) ← s.wg.resendIteration c env loop
    return ({ s with wg }, outputs)
  | .cancelLoop loop => return ({ s with wg := { s.wg with loops := s.wg.loops.erase loop } }, [])
  | .session peer i task => return ({ s with wg := s.wg.modifySession peer i task.run }, [])
  | .removeDeferred id => return ({ s with wg := s.wg.removeDeferred id }, [])
  | .startRx => return ({ s with wg := { s.wg with socketChannel := some none } }, [])
  | .takeSocket =>
    match s.wg.socketChannel with
    | some (some socket) =>
      return ({ s with wg := { s.wg with socket, socketChannel := some none } }, [])
    | _ => return (s, [])
  | .updateCookieSecret cookieSecret => return ({ s with wg := { s.wg with cookieSecret } }, [])
  | .updateMtu mtu => return ({ s with wg := { s.wg with mtu } }, [])

/-- An operation generates an id: as responder once an initiation is accepted, as initiator
once there is an endpoint to send to. -/
def DrawsId (wg : WgState HS) (env : Env) : Op → Prop
  | .datagram bytes addr => (bytes.take BUFSIZE).getD 0 0 = 1 ∧
      ∃ r rs peer0, wg.AcceptsInit c env (bytes.take BUFSIZE) addr r rs peer0
  | .resend loop => (wg.peers loop.peer).info.endpoint.isSome
  | _ => False

/-- An operation, what it read from outside, what it sent and wrote, and the id it generated. -/
structure Label where
  op : Op
  env : Env
  outputs : List Output
  drawn : Option WgId

structure Step (s : Daemon HS) (l : Label) (next : Daemon HS) : Prop where
  enabled : Enabled s.wg l.env l.op
  performed : s.perform c l.env l.op = .ok (next, l.outputs)
  draws : DrawsId c s.wg l.env l.op → l.drawn = some l.env.id
  idle : ¬ DrawsId c s.wg l.env l.op → l.drawn = none

end Daemon

end Titun
