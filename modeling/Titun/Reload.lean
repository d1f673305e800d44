import Titun.SocketHandover
import Titun.Status

/-! Configuration files: what the loader accepts, how `run` installs it, and how `reload`
applies it to a running interface. -/
namespace Titun

/-- The peers of a configuration file, with resolved endpoints. -/
structure PeerConfig where
  publicKey : X25519Pubkey
  presharedKey : Option (U8Array 32)
  endpoint : Option SocketAddr
  trueEndpoint : Option SocketAddr
  allowedIps : Finset AllowedIp
  keepalive : Option NonZeroU16
  deriving DecidableEq

structure Config where
  interface : InterfaceConfig
  peers : List PeerConfig

/-- The loop over the allowed IPs of a peer: those that were listed before are warned about. -/
def repeatedRoutes (previousRoutes : Finset AllowedIp) : List AllowedIp → List AllowedIp × Finset AllowedIp
  | [] => ([], previousRoutes)
  | route :: routes =>
    let (repeated, all) := repeatedRoutes (insert route previousRoutes) routes
    (if route ∈ previousRoutes then route :: repeated else repeated, all)

/-- Verify that there are no duplicated peers: fails with the first of them, and returns the
routes to warn about. -/
def verifyPeers (previousPeers : Finset X25519Pubkey) (previousRoutes : Finset AllowedIp) :
    List PeerConfig → Except X25519Pubkey (List AllowedIp)
  | [] => .ok []
  | p :: peers =>
    if p.publicKey ∈ previousPeers then .error p.publicKey
    else
      let (repeated, routes) := repeatedRoutes previousRoutes (iterAllowedIps p.allowedIps)
      (verifyPeers (insert p.publicKey previousPeers) routes peers).map (repeated ++ ·)

/-- What the loader accepts: prefix lengths are checked by the deserializer. -/
structure Config.Accepted (config : Config) : Prop where
  verified : ∃ warned, verifyPeers ∅ ∅ config.peers = .ok warned
  valid : ∀ p ∈ config.peers, ∀ ip ∈ p.allowedIps, ValidIp ip

/-- The order of public keys: that of their bytes. -/
def keyNumber (pk : X25519Pubkey) : Nat := Endian.ofBeBytes pk.val

theorem keyNumber_injective : Function.Injective keyNumber := fun a b same => by
  apply Subtype.ext
  have lengths : a.val.reverse.length = b.val.reverse.length := by simp
  exact List.reverse_injective (Endian.ofLeBytes_injective lengths same)

def KeyLe (a b : X25519Pubkey) : Prop := keyNumber a ≤ keyNumber b

instance : DecidableRel KeyLe := fun a b => inferInstanceAs (Decidable (keyNumber a ≤ keyNumber b))

instance : IsTrans X25519Pubkey KeyLe where
  trans _ _ _ := Nat.le_trans

instance : Std.Antisymm KeyLe where
  antisymm _ _ h k := keyNumber_injective (Nat.le_antisymm h k)

instance : Std.Total KeyLe where
  total a b := Nat.le_total (keyNumber a) (keyNumber b)

def iterKeys (s : Finset X25519Pubkey) : List X25519Pubkey := s.sort KeyLe

@[simp] theorem mem_iterKeys {s : Finset X25519Pubkey} : pk ∈ iterKeys s ↔ pk ∈ s := Finset.mem_sort _

theorem iterKeys_nodup (s : Finset X25519Pubkey) : (iterKeys s).Nodup := Finset.sort_nodup s _

def iterValues (m : HashMap X25519Pubkey α) : List α := (iterKeys m.keys).filterMap m.get

/-- Collecting into a `BTreeMap`: of equal keys the last one counts. -/
def collect (key : α → X25519Pubkey) (l : List α) : HashMap X25519Pubkey α :=
  l.foldl (fun m a => m.insert (key a) a) ∅

/-- A status as a configuration. The status does not have the true endpoint. -/
def PeerStateOut.toConfig (p : PeerStateOut) (trueEndpoint : Option SocketAddr) : PeerConfig where
  publicKey := p.publicKey
  presharedKey := p.presharedKey
  endpoint := p.endpoint
  trueEndpoint
  allowedIps := p.allowedIps
  keepalive := NonZeroU16.new p.persistentKeepaliveInterval

/-- The command for a peer that exists. Zero clears the interval. -/
def PeerConfig.modification (p : PeerConfig) : SetPeerCommand where
  publicKey := p.publicKey
  presharedKey := p.presharedKey
  endpoint := p.endpoint
  replaceAllowedIps := true
  allowedIps := p.allowedIps
  keepalive := p.keepalive.elim (some 0) (some ·.val)

/-- The command for a peer that was added. -/
def PeerConfig.addition (p : PeerConfig) : SetPeerCommand where
  publicKey := p.publicKey
  endpoint := p.endpoint
  presharedKey := p.presharedKey
  allowedIps := p.allowedIps
  replaceAllowedIps := false
  keepalive := p.keepalive.map Subtype.val

/-- The command of `run`. -/
def PeerConfig.installation (p : PeerConfig) : SetPeerCommand where
  publicKey := p.publicKey
  presharedKey := p.presharedKey
  endpoint := p.endpoint
  keepalive := p.keepalive.map Subtype.val
  replaceAllowedIps := true
  allowedIps := p.allowedIps

/-- The results of preparing a socket and of setting its mark. -/
structure SystemCalls where
  prepared : Except String (BitVec 16)
  marked : Except String Unit

namespace WgState

variable {HS : Type}

/-- Adds a peer and sets it up with a command. -/
def addPeerWith (wg : WgState HS) (env : Env) (command : SetPeerCommand) :
    Exec (Except String Unit × WgState HS) :=
  match wg.addPeer env command.publicKey with
  | (.error e, wg) => return (.error e, wg)
  | (.ok (), wg) => wg.setPeer env command

def addPeers (wg : WgState HS) (env : Env) :
    List SetPeerCommand → Exec (Except String Unit × WgState HS)
  | [] => return (.ok (), wg)
  | command :: commands => do
    match ← wg.addPeerWith env command with
    | (.error e, wg) => return (.error e, wg)
    | (.ok (), wg) => wg.addPeers env commands

/-- `run` sets a port that is configured. -/
def installPort (wg : WgState HS) (calls : SystemCalls) : Option (BitVec 16) → Except String Unit × WgState HS
  | some port => wg.setPort port calls.prepared
  | none => (.ok (), wg)

/-- `run` sets a mark that is configured. -/
def installFwmark (wg : WgState HS) (calls : SystemCalls) : Option (BitVec 32) → Except String Unit × WgState HS
  | some fwmark => wg.setFwmark fwmark calls.marked
  | none => (.ok (), wg)

/-- What `run` does with its configuration. -/
def install (wg : WgState HS) (env : Env) (order : List X25519Pubkey) (calls : SystemCalls)
    (config : Config) : Exec (Except String Unit × WgState HS) :=
  let wg := wg.setKey env order config.interface.privateKey
  match wg.installPort calls config.interface.listenPort with
  | (.error e, wg) => return (.error e, wg)
  | (.ok (), wg) =>
    match wg.installFwmark calls config.interface.fwmark with
    | (.error e, wg) => return (.error e, wg)
    | (.ok (), wg) => wg.addPeers env (config.peers.map PeerConfig.installation)

/-- The part of `reload` about the interface. Failures are only warned about. -/
def reloadInterface (wg : WgState HS) (env : Env) (order : List X25519Pubkey) (calls : SystemCalls)
    (current : WgStateOut) (new : InterfaceConfig) : WgState HS :=
  let wg := if new.privateKey ≠ current.privateKey then wg.setKey env order new.privateKey else wg
  let wg := if new.fwmark.getD 0 ≠ current.fwmark then
      (wg.setFwmark (new.fwmark.getD 0) calls.marked).2
    else wg
  if current.listenPort ≠ new.listenPort.getD 0 then
    (wg.setPort (new.listenPort.getD 0) calls.prepared).2
  else wg

/-- Doesn't even call `set_peer` if nothing changes. -/
def modifyPeer (wg : WgState HS) (env : Env) (existing : PeerStateOut) (new : PeerConfig) :
    Exec (Except String Unit × WgState HS) :=
  if new ≠ existing.toConfig new.trueEndpoint then wg.setPeer env new.modification
  else return (.ok (), wg)

/-- The loop over the peers that both have. What is left of the new peers is to be added. -/
def modifyPeers (wg : WgState HS) (env : Env) (existingMap : HashMap X25519Pubkey PeerStateOut)
    (newMap : HashMap X25519Pubkey PeerConfig) :
    List X25519Pubkey → Exec (Except String (HashMap X25519Pubkey PeerConfig) × WgState HS)
  | [] => return (.ok newMap, wg)
  | pk :: pks => do
    let new ← unwrap (newMap.get pk)
    let existing ← unwrap (existingMap.get pk)
    match ← wg.modifyPeer env existing new with
    | (.error e, wg) => return (.error e, wg)
    | (.ok (), wg) => wg.modifyPeers env (existingMap.remove pk) (newMap.remove pk) pks

/-- Reload the interface, applying configuration changes: first remove, then modify, then add,
to avoid any route conflicts. -/
def reload (wg : WgState HS) (env : Env) (clock : SystemTime) (order : List X25519Pubkey)
    (calls : SystemCalls) (config : Config) : Exec (Except String Unit × WgState HS) := do
  let current := wg.getState env.now clock order
  let wg := wg.reloadInterface env order calls current config.interface
  let existing := (current.peers.map PeerStateOut.publicKey).toFinset
  let new := (config.peers.map PeerConfig.publicKey).toFinset
  let wg ← wg.removeAllPeers env (iterKeys (existing \ new))
  match ← wg.modifyPeers env (collect PeerStateOut.publicKey current.peers)
    (collect PeerConfig.publicKey config.peers) (iterKeys (existing ∩ new)) with
  | (.error e, wg) => return (.error e, wg)
  | (.ok left, wg) => wg.addPeers env ((iterValues left).map PeerConfig.addition)

end WgState

end Titun
