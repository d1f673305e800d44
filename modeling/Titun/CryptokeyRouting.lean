import Titun.PacketIntegrity
import Titun.DaemonEvolution

/-! Cryptokey routing: in both directions a packet belongs to the peer that has the longest
allowed IP that covers the address. -/
namespace Titun

open PrefixBits

/-- The address begins with the bits of the prefix. -/
def Covers : AllowedIp → IpAddr → Prop
  | (.v4 a, len), .v4 b => SamePrefix len a b
  | (.v6 a, len), .v6 b => SamePrefix len a b
  | _, _ => False

theorem covers_iff (ip : AllowedIp) (addr : IpAddr) :
    Covers ip addr ↔ maskedIp ip = prefixOf addr ip.2 := by
  obtain ⟨a, len⟩ := ip
  cases a <;> cases addr <;>
    simp [Covers, prefixOf, maskedIp, masked_eq, and_highMask_eq_iff]

namespace WgState

variable {HS : Type} (c : Crypto HS)

/-- An allowed IP of a peer that is there. -/
def Owns (wg : WgState HS) (ref : PeerRef) (ip : AllowedIp) : Prop :=
  (∃ pk, wg.pubkeyMap.get pk = some ref) ∧ ip ∈ (wg.peers ref).info.allowedIps

/-- Of all allowed IPs that cover an address, the longest one is this peer's. -/
def OwnsLongest (wg : WgState HS) (addr : IpAddr) (owner : PeerRef) : Prop :=
  ∃ ip, wg.Owns owner ip ∧ Covers ip addr ∧
    ∀ ref other, wg.Owns ref other → Covers other addr →
      other.2 < ip.2 ∨ other = ip ∧ ref = owner

/-- A packet goes to one peer: nothing happens to the others, and what is sent is the packet,
sealed on a session of the peer, to its endpoint. -/
structure SentFor (wg next : WgState HS) (peer0 : PeerRef) (packet : Bytes) (outputs : List Output) :
    Prop where
  others : ∀ ref, ref ≠ peer0 → next.peers ref = wg.peers ref
  sealed : ∀ output ∈ outputs, ∃ t ∈ (wg.peers peer0).transports.val, ∃ endpoint,
    (wg.peers peer0).getEndpoint = some endpoint ∧
    output = .sendTo (t.sealed c t.sendCounter packet) endpoint

section routes

variable {wg : WgState HS} {o : Ownership} (refines : Refines wg o)

include refines

theorem Refines.owns_route (owns : wg.Owns ref ip) :
    wg.rt.get ip = some ref ∧ ValidIp ip ∧ maskedIp ip = ip := by
  obtain ⟨⟨pk, found⟩, allowed⟩ := owns
  have owner := (refines.allowed pk ref found ip).mp allowed
  exact ⟨refines.route_of_owner found owner, (refines.owned ip pk owner).2⟩

theorem Refines.route_owns (route : wg.rt.get ip = some ref) : wg.Owns ref ip := by
  obtain ⟨pk, owner, found⟩ := refines.owner_of_route route
  exact ⟨⟨pk, found⟩, (refines.allowed pk ref found ip).mpr owner⟩

theorem Refines.ownsLongest (found : wg.findPeerByIp addr = some owner) :
    wg.OwnsLongest addr owner := by
  obtain ⟨n, _, route, longer⟩ := (RoutingTables.longestMatch_eq_some refines.wf).mp found
  refine ⟨prefixOf addr n, refines.route_owns route, ?_, fun ref other owns covers => ?_⟩
  · rw [covers_iff]
    cases addr <;> exact maskedIp_maskedIp _
  obtain ⟨route', valid, isMasked⟩ := refines.owns_route owns
  have isPrefix : other = prefixOf addr other.2 := isMasked.symm.trans ((covers_iff other addr).mp covers)
  have width : other.2 ≤ addr.width := by
    have same := congrArg (fun ip : AllowedIp => ip.1.width) isPrefix
    have inside : other.2 ≤ other.1.width := valid
    cases addr <;> simp only [prefixOf, maskedIp, IpAddr.width] at * <;> omega
  have len : (prefixOf addr n).2 = n := by cases addr <;> rfl
  rw [isPrefix] at route'
  rcases Nat.lt_trichotomy other.2 n with shorter | same | more
  · exact .inl (len.symm ▸ shorter)
  · rw [same, route] at route'
    exact .inr ⟨same ▸ isPrefix, (Option.some.inj route').symm⟩
  · rw [longer other.2 width more] at route'
    cases route'

end routes

theorem doHandshake_others (wg : WgState HS) (env : Env) (peer0 : PeerRef) {ref : PeerRef}
    (other : ref ≠ peer0) : (wg.doHandshake env peer0).peers ref = wg.peers ref := by
  simp only [doHandshake]
  split_ifs <;> simp [setPeerState, other]

theorem sendOrEnqueue_sentFor (wg : WgState HS) (env : Env) (peer0 : PeerRef) (packet : Bytes) :
    SentFor c wg (wg.sendOrEnqueue c env peer0 packet).2 peer0 packet
      (wg.sendOrEnqueue c env peer0 packet).1.2 := by
  have none_ (p : PeerState HS) : SentFor c wg (wg.setPeerState peer0 p) peer0 packet [] :=
    ⟨fun ref other => by simp [setPeerState, other], by simp⟩
  unfold sendOrEnqueue
  cases endpoint : (wg.peers peer0).getEndpoint with
  | none =>
    simp only [endpoint]
    exact ⟨fun _ _ => rfl, by simp⟩
  | some addr =>
    cases session : (wg.peers peer0).findTransportToSend with
    | none =>
      simp only [endpoint, session]
      exact none_ _
    | some t =>
      simp only [endpoint, session]
      cases result : (t.encrypt c packet).1.1 with
      | none => exact none_ _
      | some encrypted =>
        refine ⟨fun ref other => by simp [setPeerState, other], fun output member => ?_⟩
        rw [List.mem_singleton.mp member, (Transport.encrypt_eq_some c result).2.1]
        exact ⟨t, List.mem_of_find?_eq_some session, addr, endpoint, rfl⟩

theorem packetToWrite_eq_some {wg : WgState HS} (write : wg.packetToWrite peer0 plain = some packet) :
    ∃ len src dst, parseIpPacket plain = some (len, src, dst) ∧ wg.findPeerByIp src = some peer0 ∧
      packet = plain.take len := by
  simp only [packetToWrite] at write
  split at write
  · cases write
  · rename_i len src dst parsed
    split_ifs at write with stranger inside
    exact ⟨len, src, dst, parsed, not_not.mp stranger, (Option.some.inj write).symm⟩

/-- What the two tasks that move packets do about cryptokeys in a state. -/
structure CryptokeyRouted (wg : WgState HS) : Prop where
  /-- A written packet comes from the peer that owns its source address. -/
  receive : ∀ env p addr next outputs packet, wg.udpProcessTransport c env p addr = .ok (next, outputs) →
    .tunWrite packet ∈ outputs → ∃ peer0 plain len src dst, wg.opened c p = some (peer0, plain) ∧
      parseIpPacket plain = some (len, src, dst) ∧ packet = plain.take len ∧
      wg.OwnsLongest src peer0
  /-- What happens for a packet happens for the peer that owns its destination address. -/
  send : ∀ env pkt packet next buffer outputs,
    wg.tunPacketProcessing c env pkt packet = .ok (next, buffer, outputs) →
    next = wg ∧ outputs = [] ∨ ∃ padded len src dst peer0,
      padPacket pkt packet wg.mtu = .ok (buffer, padded) ∧
      parseIpPacket padded = some (len, src, dst) ∧ wg.OwnsLongest dst peer0 ∧
      SentFor c wg next peer0 padded outputs
  /-- Without an owner nothing happens. -/
  unrouted : ∀ env pkt packet buffer padded len src dst,
    padPacket pkt packet wg.mtu = .ok (buffer, padded) →
    parseIpPacket padded = some (len, src, dst) → (∀ ref ip, wg.Owns ref ip → ¬ Covers ip dst) →
    wg.tunPacketProcessing c env pkt packet = .ok (wg, buffer, [])

theorem Refines.cryptokeyRouted {wg : WgState HS} {o : Ownership} (refines : Refines wg o) :
    CryptokeyRouted c wg where
  receive env p addr next outputs packet ok written := by
    obtain ⟨_, result⟩ := udpProcessTransport_outputs c wg env p addr
    rw [(Prod.mk.inj (Except.ok.inj (ok.symm.trans result))).2] at written
    simp only [Option.mem_toList, Option.map_eq_some_iff, Option.bind_eq_some_iff,
      Output.tunWrite.injEq] at written
    obtain ⟨_, ⟨⟨peer0, plain⟩, opens, write⟩, rfl⟩ := written
    obtain ⟨len, src, dst, parsed, found, taken⟩ := packetToWrite_eq_some write
    exact ⟨peer0, plain, len, src, dst, opens, parsed, taken, refines.ownsLongest found⟩
  send env pkt packet next buffer outputs ok := by
    simp only [tunPacketProcessing] at ok
    obtain ⟨⟨filled, padded⟩, pads, ok⟩ := bind_eq_ok.mp ok
    cases parsed : parseIpPacket padded with
    | none =>
      rw [parsed] at ok
      obtain ⟨rfl, rest⟩ := Prod.mk.inj (Except.ok.inj ok)
      exact .inl ⟨rfl, (Prod.mk.inj rest).2.symm⟩
    | some header =>
      obtain ⟨len, src, dst⟩ := header
      simp only [parsed] at ok
      cases found : wg.findPeerByIp dst with
      | none =>
        rw [found] at ok
        obtain ⟨rfl, rest⟩ := Prod.mk.inj (Except.ok.inj ok)
        exact .inl ⟨rfl, (Prod.mk.inj rest).2.symm⟩
      | some peer0 =>
        simp only [found] at ok
        by_cases tooLong : padded.length + 32 > BUFSIZE + 32
        · rw [if_pos tooLong] at ok
          cases ok
        rw [if_neg tooLong] at ok
        obtain ⟨rfl, rest⟩ := Prod.mk.inj (Except.ok.inj ok)
        obtain ⟨rfl, rfl⟩ := Prod.mk.inj rest
        obtain ⟨others, sealed⟩ := sendOrEnqueue_sentFor c wg env peer0 padded
        refine .inr ⟨padded, len, src, dst, peer0, pads, parsed, refines.ownsLongest found,
          fun ref other => ?_, sealed⟩
        split_ifs
        · rw [doHandshake_others _ env peer0 other, others ref other]
        · exact others ref other
  unrouted env pkt packet buffer padded len src dst pads parsed uncovered := by
    have nobody : wg.findPeerByIp dst = none := by
      by_contra found
      obtain ⟨owner, found⟩ := Option.ne_none_iff_exists'.mp found
      obtain ⟨ip, owns, covers, _⟩ := refines.ownsLongest found
      exact uncovered owner ip owns covers
    simp [tunPacketProcessing, pads, parsed, nobody]

end WgState

namespace Daemon

open WgState

variable {HS : Type} (c : Crypto HS)

/-- In every state that complete operations lead to, packets are routed by cryptokey. -/
theorem cryptokey_routing {info : WgInfo} {secret : U8Array 32} {mtu : BitVec 32} {now : Instant}
    {s : Daemon HS} (run : Transition.Run (Step c) (start info secret mtu now) labels s) :
    CryptokeyRouted c s.wg := by
  obtain ⟨o, refines⟩ := run_refines c run
  exact refines.cryptokeyRouted c

def configured : List Label :=
  [⟨.config (.addPeer (samplePubkey 1)), sampleEnv, [], none⟩,
    ⟨.config (.setPeer (sampleCommand (samplePubkey 1) (.v4 0x0a000000, 8))), sampleEnv, [], none⟩]

theorem cryptokey_routing_configured :
    ∃ s, Transition.Run (Step Crypto.transparent) (start ⟨zeros 32, 0, 0⟩ (zeros 32) 1280 0) configured s ∧
      CryptokeyRouted Crypto.transparent s.wg := by
  have added : ConfigOp.Valid (.addPeer (samplePubkey 1)) := trivial
  have routed : ConfigOp.Valid (.setPeer (sampleCommand (samplePubkey 1) (.v4 0x0a000000, 8))) := by
    simp [ConfigOp.Valid, sampleCommand, ValidIp, IpAddr.width]
  obtain ⟨one, oneOk, oneRefines⟩ :=
    (new_refines ⟨zeros 32, 0, 0⟩ (zeros 32) 1280 0).applyConfig sampleEnv added
  obtain ⟨two, twoOk, _⟩ := oneRefines.applyConfig sampleEnv routed
  have run : Transition.Run (Step Crypto.transparent) (start ⟨zeros 32, 0, 0⟩ (zeros 32) 1280 0)
      configured ⟨two, List.replicate BUFSIZE 0⟩ :=
    .cons (.of_config _ added oneOk _) (.cons (.of_config _ routed twoOk _) .nil)
  exact ⟨_, run, cryptokey_routing Crypto.transparent run⟩

end Daemon

end Titun
