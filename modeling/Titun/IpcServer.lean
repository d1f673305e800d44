import Titun.RouteOwnership

/-! Requests of the configuration protocol. -/
namespace Titun

structure WgSetPeerCommand where
  publicKey : X25519Pubkey
  remove : Bool
  presharedKey : Option (U8Array 32)
  endpoint : Option SocketAddr
  persistentKeepaliveInterval : Option (BitVec 16)
  replaceAllowedIps : Bool
  allowedIps : Finset AllowedIp
  deriving DecidableEq

structure WgSetCommand where
  privateKey : Option X25519Key
  fwmark : Option (BitVec 32)
  listenPort : Option (BitVec 16)
  replacePeers : Bool
  peers : List WgSetPeerCommand

/-- The command that `process_wg_set` passes on to `set_peer`. -/
def WgSetPeerCommand.toSetPeer (p : WgSetPeerCommand) : SetPeerCommand where
  publicKey := p.publicKey
  presharedKey := p.presharedKey
  endpoint := p.endpoint
  allowedIps := p.allowedIps
  keepalive := p.persistentKeepaliveInterval
  replaceAllowedIps := p.replaceAllowedIps

namespace WgState

variable {HS : Type}

/-- Adds a peer that does not exist. -/
def ensurePeer (wg : WgState HS) (env : Env) (pk : X25519Pubkey) : Exec (WgState HS) :=
  if wg.peerExists pk then .ok wg
  else do
    let (added, wg) := wg.addPeer env pk
    let _ ← unwrap added.toOption
    return wg

/-- What `process_wg_set` does for one peer of a request. -/
def processPeer (wg : WgState HS) (env : Env) (p : WgSetPeerCommand) : Exec (WgState HS) :=
  if p.remove then do
    let (_, wg) ← wg.removePeer env p.publicKey
    return wg
  else do
    let wg ← wg.ensurePeer env p.publicKey
    let (result, wg) ← wg.setPeer env p.toSetPeer
    let _ ← unwrap result.toOption
    return wg

/-- The loop of `process_wg_set` over the peers of a request. -/
def processPeers (wg : WgState HS) (env : Env) : List WgSetPeerCommand → Exec (WgState HS)
  | [] => return wg
  | p :: peers => do
    let wg ← wg.processPeer env p
    wg.processPeers env peers

end WgState

end Titun
