import Titun.WgState

/-! The state that is reported to users, with the addresses as they were configured. -/
namespace Titun

/-- A time of the system clock, in nanoseconds since the UNIX epoch. -/
abbrev SystemTime := Int

def unmapIpv4FromIpv6 (addr : SocketAddrV6) : SocketAddr :=
  if addr.ip.extractLsb' 32 96 = 0xffff#96 then .v4 (addr.ip.extractLsb' 0 32) addr.port
  else .v6 addr

structure PeerStateOut where
  publicKey : X25519Pubkey
  presharedKey : Option (U8Array 32)
  endpoint : Option SocketAddr
  lastHandshakeTime : Option SystemTime
  rxBytes : BitVec 64
  txBytes : BitVec 64
  persistentKeepaliveInterval : BitVec 16
  allowedIps : Finset AllowedIp
  deriving DecidableEq

structure WgStateOut where
  privateKey : X25519Key
  listenPort : BitVec 16
  fwmark : BitVec 32
  peers : List PeerStateOut
  deriving DecidableEq

variable {HS : Type}

/-- The age of the newest session, subtracted from what the system clock shows. -/
def PeerState.getLastHandshakeTime (p : PeerState HS) (now : Instant) (clock : SystemTime) :
    Option SystemTime :=
  p.transports.val.head?.map fun t => clock - (now - t.created : Nat)

/-- What the status shows of a peer. -/
def PeerState.out (p : PeerState HS) (now : Instant) (clock : SystemTime) : PeerStateOut where
  publicKey := p.info.publicKey
  presharedKey := p.info.psk
  endpoint := p.info.endpoint.map unmapIpv4FromIpv6
  lastHandshakeTime := p.getLastHandshakeTime now clock
  rxBytes := p.rxBytes
  txBytes := p.txBytes
  persistentKeepaliveInterval := p.info.keepalive.elim 0 Subtype.val
  allowedIps := p.info.allowedIps

def WgState.getState (wg : WgState HS) (now : Instant) (clock : SystemTime)
    (order : List X25519Pubkey) : WgStateOut where
  privateKey := wg.info.key
  listenPort := wg.info.port
  fwmark := wg.info.fwmark
  peers := (order.filterMap wg.pubkeyMap.get).map fun ref => (wg.peers ref).out now clock

theorem extractLsb'_append_high (x : BitVec n) (y : BitVec m) : (x ++ y).extractLsb' m n = x := by
  ext i bound
  simp [← BitVec.getLsbD_eq_getElem, BitVec.getLsbD_append, bound]

theorem extractLsb'_append_low (x : BitVec n) (y : BitVec m) : (x ++ y).extractLsb' 0 m = y := by
  ext i bound
  simp [← BitVec.getLsbD_eq_getElem, BitVec.getLsbD_append, bound]

/-- An endpoint is shown as it was configured, unless it was a mapped IPv4 address. -/
theorem unmap_map_v4 (ip : BitVec 32) (port : BitVec 16) :
    unmapIpv4FromIpv6 (mapIpv4ToIpv6 (.v4 ip port)) = .v4 ip port := by
  have high := extractLsb'_append_high 0xffff#96 ip
  have low := extractLsb'_append_low 0xffff#96 ip
  rw [unmapIpv4FromIpv6, mapIpv4ToIpv6, if_pos high, low]

theorem unmap_map_unmap (a : SocketAddrV6) :
    unmapIpv4FromIpv6 (mapIpv4ToIpv6 (unmapIpv4FromIpv6 a)) = unmapIpv4FromIpv6 a := by
  by_cases mapped : a.ip.extractLsb' 32 96 = 0xffff#96
  · rw [show unmapIpv4FromIpv6 a = .v4 (a.ip.extractLsb' 0 32) a.port by simp [unmapIpv4FromIpv6, mapped]]
    exact unmap_map_v4 _ _
  · rw [show unmapIpv4FromIpv6 a = .v6 a by simp [unmapIpv4FromIpv6, mapped]]
    simp [mapIpv4ToIpv6, unmapIpv4FromIpv6, mapped]

theorem nonZero_of_elim (k : Option NonZeroU16) : NonZeroU16.new (k.elim 0 Subtype.val) = k := by
  cases k with
  | none => rfl
  | some k => exact dif_pos k.property

end Titun
