import Titun.Ip
import Titun.IpLookupTable
import Titun.Lib.HashMap
import Titun.LoadMonitor
import Titun.PeerState

/-! The WireGuard state machine and its configuration. Peers stand behind shared
references, so the maps hold references and `peers` what they refer to. -/
namespace Titun

/-- How many handshake messages per second is considered normal load. -/
def HANDSHAKES_PER_SEC : BitVec 32 := 250

/-- The identity of a `SharedPeerState`. -/
abbrev PeerRef := Nat

/-- The UDP socket: the port it is bound to and its mark. -/
structure Socket where
  port : BitVec 16
  fwmark : BitVec 32
  deriving DecidableEq

/-- `rt4` and `rt6`. -/
structure RoutingTables where
  rt4 : IpLookupTable 32 PeerRef
  rt6 : IpLookupTable 128 PeerRef
  deriving DecidableEq

/-- A task that resends handshake initiations for a peer, bound to a scope. -/
structure ResendLoop where
  scope : ScopeId
  peer : PeerRef
  deriving DecidableEq

structure WgState (HS : Type) where
  info : WgInfo
  pubkeyMap : HashMap X25519Pubkey PeerRef
  idMap : HashMap WgId PeerRef
  rt : RoutingTables
  loadMonitor : LoadMonitor
  /-- The secret used to calc cookie. -/
  cookieSecret : U8Array 32
  socket : Socket
  /-- The channel to the rx task, with the socket in it, once that task runs. -/
  socketChannel : Option (Option Socket)
  mtu : BitVec 32
  peers : PeerRef → PeerState HS
  /-- References from here on are not in use. -/
  nextPeer : PeerRef
  /-- Ids whose removal from `idMap` a dropped guard has left to a task. -/
  deferred : List WgId
  loops : List ResendLoop
  nextScope : ScopeId

/-- What an operation reads from outside: the clocks, random numbers, the environment,
and whether the id map can be locked at once. -/
structure Env where
  now : Instant
  time : TAI64N
  id : WgId
  ephemeral : X25519Key
  nonce : U8Array 24
  interopTest : Bool
  idMapFree : WgId → Bool

def sampleEnv : Env := ⟨0, ⟨0, 0⟩, zeros 4, zeros 32, zeros 24, false, fun _ => true⟩

namespace RoutingTables

def new : RoutingTables := ⟨.new, .new⟩

def insert (rt : RoutingTables) (ip : AllowedIp) (peer : PeerRef) :
    Exec (Option PeerRef × RoutingTables) :=
  match ip with
  | (.v4 a, m) => do
    let (old, rt4) ← rt.rt4.insert a m peer
    return (old, { rt with rt4 })
  | (.v6 a, m) => do
    let (old, rt6) ← rt.rt6.insert a m peer
    return (old, { rt with rt6 })

def remove (rt : RoutingTables) (ip : AllowedIp) : Exec RoutingTables :=
  match ip with
  | (.v4 a, m) => do
    let (_, rt4) ← rt.rt4.remove a m
    return { rt with rt4 }
  | (.v6 a, m) => do
    let (_, rt6) ← rt.rt6.remove a m
    return { rt with rt6 }

def longestMatch (rt : RoutingTables) : IpAddr → Option PeerRef
  | .v4 a => rt.rt4.longestMatch a
  | .v6 a => rt.rt6.longestMatch a

def removeAll (rt : RoutingTables) : List AllowedIp → Exec RoutingTables
  | [] => return rt
  | ip :: ips => do
    let rt ← rt.remove ip
    rt.removeAll ips

/-- The loop of `set_peer` in replace mode: the routes to a peer, and what they displace. -/
def insertAll (rt : RoutingTables) (peer : PeerRef) :
    List AllowedIp → Exec (List (PeerRef × AllowedIp) × RoutingTables)
  | [] => return ([], rt)
  | ip :: ips => do
    let (old, rt) ← rt.insert ip peer
    let (displaced, rt) ← rt.insertAll peer ips
    return ((old.map (·, ip)).toList ++ displaced, rt)

/-- The loop of `set_peer` in append mode, which also adds to the peer's allowed IPs. -/
def appendAll (rt : RoutingTables) (peer : PeerRef) (allowedIps : Finset AllowedIp) :
    List AllowedIp → Exec (List (PeerRef × AllowedIp) × RoutingTables × Finset AllowedIp)
  | [] => return ([], rt, allowedIps)
  | ip :: ips => do
    if ip ∈ allowedIps then rt.appendAll peer allowedIps ips
    else
      let (old, rt) ← rt.insert ip peer
      let (displaced, rt, allowedIps) ← rt.appendAll peer (Insert.insert ip allowedIps) ips
      return ((old.map (·, ip)).toList ++ displaced, rt, allowedIps)

end RoutingTables

/-- A command of the configuration protocol; `none` leaves an attribute alone. -/
structure SetPeerCommand where
  publicKey : X25519Pubkey
  presharedKey : Option (U8Array 32)
  endpoint : Option SocketAddr
  /-- Zero turns it off. -/
  keepalive : Option (BitVec 16)
  replaceAllowedIps : Bool
  allowedIps : Finset AllowedIp
  deriving DecidableEq

/-- The masked form of an allowed IP. -/
def maskedIp : AllowedIp → AllowedIp
  | (.v4 a, m) => (.v4 (masked a m), m)
  | (.v6 a, m) => (.v6 (masked a m), m)

namespace WgState

variable {HS : Type}

def new (info : WgInfo) (cookieSecret : U8Array 32) (mtu : BitVec 32) (now : Instant) :
    WgState HS where
  info
  pubkeyMap := ∅
  idMap := ∅
  rt := .new
  loadMonitor := .new HANDSHAKES_PER_SEC now
  cookieSecret
  socket := ⟨info.port, info.fwmark⟩
  socketChannel := none
  mtu
  peers := fun _ => .new (zeros 32) now
  nextPeer := 0
  deferred := []
  loops := []
  nextScope := 0

def findPeerById (wg : WgState HS) (id : WgId) : Option PeerRef := wg.idMap.get id

def findPeerByPubkey (wg : WgState HS) (pk : X25519Pubkey) : Option PeerRef := wg.pubkeyMap.get pk

def peerExists (wg : WgState HS) (pk : X25519Pubkey) : Bool := (wg.findPeerByPubkey pk).isSome

/-- Find peer by ip address, consulting the routing tables. -/
def findPeerByIp (wg : WgState HS) (addr : IpAddr) : Option PeerRef := wg.rt.longestMatch addr

def setPeerState (wg : WgState HS) (ref : PeerRef) (p : PeerState HS) : WgState HS :=
  { wg with peers := Function.update wg.peers ref p }

def dropGuard (wg : WgState HS) (env : Env) (id : WgId) : WgState HS :=
  if env.idMapFree id then { wg with idMap := wg.idMap.remove id }
  else { wg with deferred := wg.deferred ++ [id] }

def dropGuards (wg : WgState HS) (env : Env) (ids : List WgId) : WgState HS :=
  ids.foldl (fun wg id => wg.dropGuard env id) wg

/-- The task that a guard could not do without. -/
def removeDeferred (wg : WgState HS) (id : WgId) : WgState HS :=
  { wg with idMap := wg.idMap.remove id, deferred := wg.deferred.erase id }

def clearPeer (wg : WgState HS) (env : Env) (ref : PeerRef) : WgState HS :=
  let (ids, p) := (wg.peers ref).clear
  (wg.setPeerState ref p).dropGuards env ids

def addPeer (wg : WgState HS) (env : Env) (publicKey : X25519Pubkey) :
    Except String Unit × WgState HS :=
  if (wg.pubkeyMap.get publicKey).isSome then (.error "Public key already exists.", wg)
  else
    (.ok (), { wg with
      peers := Function.update wg.peers wg.nextPeer (.new publicKey env.now)
      nextPeer := wg.nextPeer + 1
      pubkeyMap := wg.pubkeyMap.insert publicKey wg.nextPeer })

/-- Change key. The peers are visited in `order`. -/
def setKey (wg : WgState HS) (env : Env) (order : List X25519Pubkey) (key : X25519Key) :
    WgState HS :=
  let wg := (order.filterMap wg.pubkeyMap.get).foldl (fun wg ref => wg.clearPeer env ref) wg
  { wg with info := { wg.info with key } }

/-- Change listen port. Preparing the socket fails or returns the port that the socket gets
when the new port is zero. -/
def setPort (wg : WgState HS) (newPort : BitVec 16) (prepared : Except String (BitVec 16)) :
    Except String Unit × WgState HS :=
  if newPort = wg.info.port then (.ok (), wg)
  else match prepared with
    | .error e => (.error e, wg)
    | .ok bound =>
      let port := if newPort = 0 then bound else newPort
      let socket : Socket := ⟨port, wg.info.fwmark⟩
      let wg := match wg.socketChannel with
        | some _ => { wg with socketChannel := some (some socket) }
        | none => { wg with socket }
      (.ok (), { wg with info := { wg.info with port } })

/-- Set fwmark of the UDP socket, with the result of the system call. -/
def setFwmark (wg : WgState HS) (newFwmark : BitVec 32) (marked : Except String Unit) :
    Except String Unit × WgState HS :=
  if wg.info.fwmark = newFwmark then (.ok (), wg)
  else match marked with
    | .error e => (.error e, wg)
    | .ok () =>
      (.ok (), { wg with
        socket := { wg.socket with fwmark := newFwmark }
        info := { wg.info with fwmark := newFwmark } })

/-- The loop that takes displaced prefixes from their old owners. The lock of `peer0`
is still held. -/
def dropDisplaced (peer0 : PeerRef) (peers : PeerRef → PeerState HS) :
    List (PeerRef × AllowedIp) → Exec (PeerRef → PeerState HS)
  | [] => return peers
  | (old, ip) :: rest => do
    if old = peer0 then .error .deadlock
    let p := peers old
    assert (ip ∈ p.info.allowedIps)
    let info := { p.info with allowedIps := p.info.allowedIps.erase ip }
    dropDisplaced peer0 (Function.update peers old { p with info }) rest

/-- The pre-shared key in `set_peer`; a change clears the peer. -/
def setPsk (p : PeerState HS) (presharedKey : Option (U8Array 32)) : List WgId × PeerState HS :=
  if p.info.psk ≠ presharedKey then
    let (dropped, p) := p.clear
    (dropped, { p with info := { p.info with psk := presharedKey } })
  else ([], p)

def pinEndpoint (p : PeerState HS) : Option SocketAddr → PeerState HS
  | none => p
  | some endpoint =>
    { p with info := { p.info with endpoint := some (mapIpv4ToIpv6 endpoint), roaming := false } }

def setKeepalive (p : PeerState HS) (now : Instant) : Option (BitVec 16) → PeerState HS
  | none => p
  | some interval =>
    if p.info.keepalive ≠ NonZeroU16.new interval then
      { p with
        info := { p.info with keepalive := NonZeroU16.new interval }
        persistentKeepalive :=
          if interval > 0 then p.persistentKeepalive.adjustAndActivateSecs now 5
          else p.persistentKeepalive.deActivate }
    else p

/-- The part of `set_peer` before the allowed IPs. -/
def setPeerInfo (env : Env) (p : PeerState HS) (command : SetPeerCommand) :
    List WgId × PeerState HS :=
  let (dropped, p) := setPsk p command.presharedKey
  (dropped, setKeepalive (pinEndpoint p command.endpoint) env.now command.keepalive)

/-- The part of `set_peer` under the locks of the routing tables: what is displaced, the
tables, and the peer's allowed IPs. -/
def setRoutes (rt : RoutingTables) (peer0 : PeerRef) (old new : Finset AllowedIp) (replace : Bool) :
    Exec (List (PeerRef × AllowedIp) × RoutingTables × Finset AllowedIp) := do
  if replace then
    let rt ← rt.removeAll (iterAllowedIps (old \ new))
    let (displaced, rt) ← rt.insertAll peer0 (iterAllowedIps (new \ old))
    return (displaced, rt, new)
  else rt.appendAll peer0 old (iterAllowedIps new)

/-- The part of `set_peer` under the lock of the peer. -/
def configure (wg : WgState HS) (env : Env) (peer0 : PeerRef) (command : SetPeerCommand) :
    Exec (WgState HS) := do
  let (dropped, peer) := setPeerInfo env (wg.peers peer0) command
  let wg := (wg.setPeerState peer0 peer).dropGuards env dropped
  let allowedIps := command.allowedIps.image maskedIp
  let (displaced, rt, allowedIps) ←
    setRoutes wg.rt peer0 peer.info.allowedIps allowedIps command.replaceAllowedIps
  let wg := { wg.setPeerState peer0 { peer with info := { peer.info with allowedIps } } with rt }
  let peers ← dropDisplaced peer0 wg.peers displaced
  return { wg with peers }

/-- Change configuration of a peer. Will return error if the peer does not exist. -/
def setPeer (wg : WgState HS) (env : Env) (command : SetPeerCommand) :
    Exec (Except String Unit × WgState HS) := do
  match wg.findPeerByPubkey command.publicKey with
  | none => return (.error "Peer not found", wg)
  | some peer0 =>
    let wg ← wg.configure env peer0 command
    return (.ok (), wg)

/-- The part of `remove_peer` under the lock of the peer. -/
def detach (wg : WgState HS) (env : Env) (ref : PeerRef) : Exec (WgState HS) := do
  let wg := wg.clearPeer env ref
  let rt ← wg.rt.removeAll (iterAllowedIps (wg.peers ref).info.allowedIps)
  return { wg with rt }

def removePeer (wg : WgState HS) (env : Env) (peerPubkey : X25519Pubkey) :
    Exec (Bool × WgState HS) := do
  match wg.pubkeyMap.get peerPubkey with
  | none => return (false, wg)
  | some ref =>
    let wg ← { wg with pubkeyMap := wg.pubkeyMap.remove peerPubkey }.detach env ref
    return (true, wg)

def removeAllPeers (wg : WgState HS) (env : Env) : List X25519Pubkey → Exec (WgState HS)
  | [] => return wg
  | pk :: order => do
    let (_, wg) ← wg.removePeer env pk
    wg.removeAllPeers env order

def sampleReceiver : WgState X25519Key :=
  let session := Transport.newFromHs Crypto.transparent 0 (zeros 4) (zeros 4) (zeros 32)
  { (WgState.new ⟨zeros 32, 0, 0⟩ (zeros 32) 1280 0 : WgState X25519Key) with
    pubkeyMap := HashMap.insert ∅ (zeros 32) 0
    idMap := HashMap.insert ∅ (zeros 4) 0
    rt := ⟨⟨.node 0 0 .nil .nil (some 0)⟩, ⟨.node 0 0 .nil .nil (some 0)⟩⟩
    peers := fun _ => ((PeerState.new (zeros 32) 0).pushTransport 0 session).2
    nextPeer := 1 }

def sampleAddr : SocketAddrV6 := ⟨0, 0, 0, 0⟩

end WgState

end Titun
