import Titun.UdpProcessing

/-! The tasks of a peer: its timers, the loop that resends handshake initiations, and what
its sessions do after a delay. -/
namespace Titun

inductive TimerKind where
  | rekeyNoRecv
  | keepalive
  | persistentKeepalive
  | stopHandshake
  | clear
  deriving DecidableEq, Repr

namespace PeerState

variable {HS : Type}

def timer (p : PeerState HS) : TimerKind → TimerHandle
  | .rekeyNoRecv => p.rekeyNoRecv
  | .keepalive => p.keepalive
  | .persistentKeepalive => p.persistentKeepalive
  | .stopHandshake => p.stopHandshake
  | .clear => p.clearTimer

def setTimer (p : PeerState HS) (t : TimerHandle) : TimerKind → PeerState HS
  | .rekeyNoRecv => { p with rekeyNoRecv := t }
  | .keepalive => { p with keepalive := t }
  | .persistentKeepalive => { p with persistentKeepalive := t }
  | .stopHandshake => { p with stopHandshake := t }
  | .clear => { p with clearTimer := t }

end PeerState

namespace WgState

variable {HS : Type} (c : Crypto HS)

/-- Returns whether to start a handshake, and what is sent. -/
def doKeepalive1 (wg : WgState HS) (env : Env) (peer0 : PeerRef) :
    (Bool × List Output) × WgState HS :=
  let peer := wg.peers peer0
  match peer.getEndpoint with
  | none => ((false, []), wg)
  | some endpoint =>
    match peer.findTransportToSend with
    | none => ((peer.reallyShouldHandshake env.now, []), wg)
    | some t =>
      let ((result, shouldHandshake), t) := t.encrypt c []
      let peer := peer.setTransportToSend t
      let handshake := shouldHandshake && peer.reallyShouldHandshake env.now
      match result with
      | none => ((handshake, []), wg.setPeerState peer0 peer)
      | some out =>
        let peer := (peer.countSend out.length).onSendKeepalive env.now
        ((handshake, [.sendTo out endpoint]), wg.setPeerState peer0 peer)

def keepaliveAction (wg : WgState HS) (env : Env) (peer0 : PeerRef) : WgState HS × List Output :=
  let ((handshake, outputs), wg) := wg.doKeepalive1 c env peer0
  (if handshake then wg.doHandshake env peer0 else wg, outputs)

def stopHandshakeAction (wg : WgState HS) (env : Env) (peer0 : PeerRef) : WgState HS :=
  let peer := wg.peers peer0
  let dropped := peer.handshakeIds
  (wg.setPeerState peer0 { peer with handshakeResendScope := none, handshake := none }).dropGuards
    env dropped

/-- The action of a timer. -/
def timerAction (wg : WgState HS) (env : Env) (peer0 : PeerRef) : TimerKind → WgState HS × List Output
  | .rekeyNoRecv => (wg.doHandshake env peer0, [])
  | .keepalive => wg.keepaliveAction c env peer0
  | .persistentKeepalive =>
    let (wg, outputs) := wg.keepaliveAction c env peer0
    let peer := wg.peers peer0
    (wg.setPeerState peer0 { peer with persistentKeepalive := peer.rearmPersistentKeepalive env.now },
      outputs)
  | .stopHandshake => (wg.stopHandshakeAction env peer0, [])
  | .clear => (wg.clearPeer env peer0, [])

/-- The task of a timer is polled, and runs the action when the timer fires. -/
def runTimer (wg : WgState HS) (env : Env) (peer0 : PeerRef) (kind : TimerKind) :
    WgState HS × List Output :=
  let peer := wg.peers peer0
  let (fires, handle) := (peer.timer kind).poll env.now
  let wg := wg.setPeerState peer0 (peer.setTimer handle kind)
  if fires then wg.timerAction c env peer0 kind else (wg, [])

/-- One iteration of the resend loop, with the peer still there. -/
def resendInitiation (wg : WgState HS) (env : Env) (peer0 : PeerRef) :
    Exec (WgState HS × List Output) := do
  let peer := wg.peers peer0
  match peer.info.endpoint with
  | none => return (wg, [])
  | some endpoint =>
    let id := env.id
    let wg := { wg with idMap := wg.idMap.insert id peer0 }
    match initiate c wg.info peer.info id env.ephemeral env.time with
    | none => return (wg.dropGuard env id, [])
    | some (initMsg, hs) =>
      let initMsg := cookieSign c initMsg (peer.getCookie env.now)
      let mac1 ← getMac1 initMsg.val
      let superseded := peer.handshakeIds
      let peer := { peer with lastMac1 := some mac1, handshake := some ⟨id, hs⟩ }
      let peer := peer.countSend initMsg.val.length
      return ((wg.setPeerState peer0 peer).dropGuards env superseded, [.sendTo initMsg.val endpoint])

/-- The loop goes on while its peer holds its scope. -/
def resendIteration (wg : WgState HS) (env : Env) (loop : ResendLoop) :
    Exec (WgState HS × List Output) := do
  let (wg, outputs) ← wg.resendInitiation c env loop.peer
  if (wg.peers loop.peer).handshakeResendScope = some loop.scope then return (wg, outputs)
  else return ({ wg with loops := wg.loops.erase loop }, outputs)

/-- A task of the session at a position among the peer's sessions. -/
def modifySession (wg : WgState HS) (peer0 : PeerRef) (i : Nat) (f : Transport → Transport) :
    WgState HS :=
  let peer := wg.peers peer0
  wg.setPeerState peer0 { peer with transports := peer.transports.modify i f }

end WgState

end Titun
