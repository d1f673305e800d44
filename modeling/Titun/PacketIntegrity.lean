import Titun.TunProcessing

/-! From the TUN device of the sender to the TUN device of the receiver: what is written
there, and when it is the packet that was read. -/
namespace Titun.WgState

open Endian

variable {HS : Type} (c : Crypto HS)

/-- The peer on whose session a datagram opens, and the plaintext. -/
def opened (wg : WgState HS) (p : Bytes) : Option (PeerRef × Bytes) :=
  if p.length < 32 then none
  else
    match sliceArray p 4 4 with
    | .error _ => none
    | .ok selfId => do
      let peer0 ← wg.findPeerById selfId
      let t ← (wg.peers peer0).findTransportById selfId
      let (_, plain) ← (t.decrypt c p).1
      return (peer0, plain)

theorem setPeerState_peers (wg : WgState HS) (ref : PeerRef) (p : PeerState HS) :
    (wg.setPeerState ref p).peers ref = p := Function.update_self ..

theorem carryOut_outputs (wg : WgState HS) (env : Env) (addr : SocketAddrV6) (peer0 : PeerRef)
    (decision : Decision)
    (roaming : decision.setEndpoint = true → (wg.peers peer0).info.roaming = true) :
    ∃ next, wg.carryOut env addr peer0 decision =
      .ok (next, (decision.write.map .tunWrite).toList) := by
  by_cases sets : decision.setEndpoint = true
  · simp only [carryOut, sets, if_true, PeerState.setEndpoint, roaming sets, assert_true, ok_bind,
      Except.map, pure_eq_ok]
    exact ⟨_, rfl⟩
  · simp only [carryOut, sets]
    exact ⟨_, rfl⟩

theorem udpProcessTransport_outputs (wg : WgState HS) (env : Env) (p : Bytes) (addr : SocketAddrV6) :
    ∃ next, wg.udpProcessTransport c env p addr = .ok (next,
      (((wg.opened c p).bind fun r => wg.packetToWrite r.1 r.2).map
        .tunWrite).toList) := by
  by_cases short : p.length < 32
  · exact ⟨wg, by simp [udpProcessTransport, opened, short]⟩
  obtain ⟨selfId, slice, _⟩ := sliceArray_eq p 4 4 (by omega)
  cases found : wg.findPeerById selfId with
  | none => exact ⟨wg, by simp [udpProcessTransport, opened, short, slice, found]⟩
  | some peer0 =>
    have handler : wg.udpProcessTransport c env p addr = (wg.decideTransport c env p addr selfId
        peer0).2.carryOut env addr peer0 (wg.decideTransport c env p addr selfId peer0).1 := by
      simp only [udpProcessTransport, short, slice, found, if_false, ok_bind]
    rcases decideTransport_cases c wg env p addr selfId peer0 with
      ⟨t, h, plain, session, opens, handshake, decided⟩ | ⟨unopened, decided⟩
    · obtain ⟨next, ok⟩ := carryOut_outputs
        (wg.setPeerState peer0 (received (wg.peers peer0) env p.length selfId
          (t.accept (Transport.counterOf p)) plain)) env addr peer0
        ⟨wg.packetToWrite peer0 plain, decide ((wg.peers peer0).info.endpoint ≠ some addr) &&
          (wg.peers peer0).info.roaming, handshake⟩
        (fun sets => by
          rw [setPeerState_peers]
          exact ((Bool.and_eq_true _ _).mp sets).2)
      refine ⟨next, ?_⟩
      rw [handler, decided, ok]
      simp [opened, short, slice, found, session, opens]
    · obtain ⟨next, ok⟩ := carryOut_outputs
        (wg.setPeerState peer0 ((wg.peers peer0).countRecv p.length)) env addr peer0
        ⟨none, false, false⟩ (fun sets => by cases sets)
      refine ⟨next, ?_⟩
      rw [handler, decided, ok]
      cases session : (wg.peers peer0).findTransportById selfId with
      | none => simp [opened, short, slice, found, session]
      | some t => simp [opened, short, slice, found, session, unopened t session]

theorem packetToWrite_allowed {wg : WgState HS} {peer0 : PeerRef} {plain : Bytes}
    (parsed : parseIpPacket plain = some (len, src, dst)) (allowed : wg.findPeerByIp src = some peer0) :
    wg.packetToWrite peer0 plain = if len ≤ plain.length then some (plain.take len) else none := by
  simp [packetToWrite, parsed, allowed]

/-- Of a padded packet, IPv4 gets back all and IPv6 loses the 40 bytes that its length field
does not count. -/
theorem packetToWrite_padded {wg : WgState HS} {peer0 : PeerRef} {p : Bytes} (wf : WellFormed p)
    (padding : Bytes) (allowed : ∀ len src dst, parseIpPacket (p ++ padding) = some (len, src, dst) →
      wg.findPeerByIp src = some peer0) :
    wg.packetToWrite peer0 (p ++ padding) =
      some (if ipVersion p = 4 then p else p.take (p.length - 40)) := by
  obtain ⟨same, parses⟩ := parseIpPacket_padded wf padding
  obtain ⟨⟨len, src, dst⟩, parsed⟩ := Option.isSome_iff_exists.mp parses
  rw [packetToWrite_allowed (same.trans parsed) (allowed len src dst (same.trans parsed))]
  rcases wf.cases with ⟨version, long, declared⟩ | ⟨version, long, declared⟩
  · rcases parseIpPacket_eq_some parsed with ⟨_, _, total⟩ | ⟨other, _⟩
    · rw [if_pos version, total, declared, if_pos (by simp), List.take_left]
    · rw [version] at other
      cases other
  · have not4 : ipVersion p ≠ 4 := by rw [version]; decide
    rcases parseIpPacket_eq_some parsed with ⟨other, _⟩ | ⟨_, _, payload, _⟩
    · exact absurd other not4
    · rw [if_neg not4, if_pos (by rw [List.length_append]; omega)]
      rw [List.take_append_of_le_length (by omega), show len = p.length - 40 by omega]

/-- A packet read by the sender, whatever its padding, is written by the receiver as it was
exactly when it is an IPv4 packet. -/
theorem packet_integrity_iff {p pkt : Bytes} (wf : WellFormed p) (short : p.length ≤ BUFSIZE)
    (size : pkt.length = BUFSIZE) (mtu : BitVec 32) :
    ∃ next plain, padPacket pkt p mtu = .ok (next, plain) ∧
      ∀ (wg : WgState HS) (env : Env) (datagram : Bytes) (addr : SocketAddrV6) (peer0 : PeerRef),
        wg.opened c datagram = some (peer0, plain) →
        (∀ len src dst, parseIpPacket plain = some (len, src, dst) → wg.findPeerByIp src = some peer0) →
        ((∃ last, wg.udpProcessTransport c env datagram addr = .ok (last, [.tunWrite p])) ↔
          ipVersion p = 4) := by
  obtain ⟨next, _, padded⟩ := padPacket_eq pkt p mtu size short
  refine ⟨next, _, padded, fun wg env datagram addr peer0 opens allowed => ?_⟩
  obtain ⟨last, ok⟩ := udpProcessTransport_outputs c wg env datagram addr
  rw [ok, opens]
  simp only [Option.bind_some, packetToWrite_padded wf _ allowed, Option.map_some,
    Option.toList_some, Except.ok.injEq, Prod.mk.injEq, exists_and_right, exists_eq', true_and,
    List.cons.injEq, and_true, Output.tunWrite.injEq]
  split_ifs with version
  · simp [version]
  · have lost : (p.take (p.length - 40)).length ≠ p.length := by
      rcases wf.cases with ⟨other, _⟩ | ⟨_, long, _⟩
      · exact absurd other version
      · rw [List.length_take]
        omega
    exact iff_of_false (fun same => lost (congrArg List.length same)) version

def sampleMessage (plain : Bytes) : Bytes :=
  (Transport.newFromHs Crypto.transparent 0 (zeros 4) (zeros 4) (zeros 32)).sealed
    Crypto.transparent 0 plain

def sampleIpv4 : Bytes := [0x45, 0, 0, 20] ++ List.replicate 16 0

def sampleIpv6 : Bytes := 0x60 :: List.replicate 39 0

theorem packet_integrity_iff_ipv4 :
    ∃ next plain, padPacket (List.replicate BUFSIZE 0) sampleIpv4 1280 = .ok (next, plain) ∧
      ∃ last, sampleReceiver.udpProcessTransport Crypto.transparent sampleEnv (sampleMessage plain)
        sampleAddr = .ok (last, [.tunWrite sampleIpv4]) := by
  obtain ⟨next, plain, padded, delivers⟩ := packet_integrity_iff Crypto.transparent
    (p := sampleIpv4) (by decide) (by decide) List.length_replicate 1280
  obtain ⟨_, _, zeroed⟩ := padPacket_eq (List.replicate BUFSIZE 0) sampleIpv4 1280
    List.length_replicate (by decide)
  refine ⟨next, plain, padded, ?_⟩
  rw [padded] at zeroed
  obtain ⟨_, rfl⟩ := Prod.mk.inj (Except.ok.inj zeroed)
  refine (delivers sampleReceiver sampleEnv _ sampleAddr 0 (by decide) fun len src dst parsed => ?_).mpr
    (by decide)
  have header : parseIpPacket (sampleIpv4 ++ List.replicate 12 0) = some (20, .v4 0, .v4 0) := by decide
  obtain ⟨_, rfl, _⟩ := Prod.mk.inj (Option.some.inj (header.symm.trans parsed))
  decide

/-- An IPv6 packet does not arrive: nothing of this one is written. -/
theorem ipv6_not_delivered :
    ¬ ∀ {HS : Type} (c : Crypto HS) (p pkt : Bytes) (mtu : BitVec 32), WellFormed p →
      p.length ≤ BUFSIZE → pkt.length = BUFSIZE →
      ∃ next plain, padPacket pkt p mtu = .ok (next, plain) ∧
        ∀ (wg : WgState HS) (env : Env) (datagram : Bytes) (addr : SocketAddrV6) (peer0 : PeerRef),
          wg.opened c datagram = some (peer0, plain) →
          (∀ len src dst, parseIpPacket plain = some (len, src, dst) →
            wg.findPeerByIp src = some peer0) →
          ∃ last, wg.udpProcessTransport c env datagram addr = .ok (last, [.tunWrite p]) := by
  intro claim
  obtain ⟨next, plain, padded, delivers⟩ := claim Crypto.transparent sampleIpv6
    (List.replicate BUFSIZE 0) 1280 (by decide) (by decide) List.length_replicate
  obtain ⟨_, _, zeroed⟩ := padPacket_eq (List.replicate BUFSIZE 0) sampleIpv6 1280
    List.length_replicate (by decide)
  rw [padded] at zeroed
  obtain ⟨_, rfl⟩ := Prod.mk.inj (Except.ok.inj zeroed)
  have opens : sampleReceiver.opened Crypto.transparent
    (sampleMessage (sampleIpv6 ++ List.replicate 8 0)) = some (0, sampleIpv6 ++ List.replicate 8 0) := by
    decide
  have cut : sampleReceiver.packetToWrite 0 (sampleIpv6 ++ List.replicate 8 0) = some [] := by decide
  obtain ⟨last, delivered⟩ := delivers sampleReceiver sampleEnv _ sampleAddr 0 opens
    fun len src dst parsed => by
      have header : parseIpPacket (sampleIpv6 ++ List.replicate 8 0) = some (0, .v6 0, .v6 0) := by decide
      obtain ⟨_, rfl, _⟩ := Prod.mk.inj (Option.some.inj (header.symm.trans parsed))
      decide
  obtain ⟨_, outputs⟩ := udpProcessTransport_outputs Crypto.transparent sampleReceiver sampleEnv
    (sampleMessage (sampleIpv6 ++ List.replicate 8 0)) sampleAddr
  simp only [opens, Option.bind_some, cut] at outputs
  have same := (Prod.mk.inj (Except.ok.inj (outputs.symm.trans delivered))).2
  simp [sampleIpv6] at same

theorem ipVersion_take {plain : Bytes} (positive : 0 < len) (inside : len ≤ plain.length) :
    ipVersion (plain.take len) = ipVersion plain := by
  conv_rhs => rw [← List.take_append_drop len plain]
  rw [ipVersion, ipVersion, getD_append]
  rw [List.length_take]
  omega

theorem sub_take {plain : Bytes} (stops : stop ≤ len) (inside : len ≤ plain.length) :
    sub (plain.take len) start stop = sub plain start stop := by
  conv_rhs => rw [← List.take_append_drop len plain]
  rw [sub_append]
  rw [List.length_take]
  omega

theorem wellFormed_take_iff {plain : Bytes} (parsed : parseIpPacket plain = some (len, src, dst))
    (inside : len ≤ plain.length) :
    WellFormed (plain.take len) ↔ ipVersion plain = 4 ∧ 20 ≤ len := by
  have size : (plain.take len).length = len := by
    rw [List.length_take]
    omega
  have complete (wf : WellFormed (plain.take len)) :
      (ipVersion plain = 4 ∧ 20 ≤ len ∧ ofBeBytes (sub plain 2 4) = len) ∨
      (ipVersion plain = 6 ∧ 40 ≤ len ∧ ofBeBytes (sub plain 4 6) + 40 = len) := by
    have cases := wf.cases
    rw [size] at cases
    rcases cases with ⟨version, long, total⟩ | ⟨version, long, total⟩
    · rw [ipVersion_take (by omega) inside] at version
      rw [sub_take (by omega) inside] at total
      exact .inl ⟨version, long, total⟩
    · rw [ipVersion_take (by omega) inside] at version
      rw [sub_take (by omega) inside] at total
      exact .inr ⟨version, long, total⟩
  rcases parseIpPacket_eq_some parsed with ⟨version, _, total⟩ | ⟨version, _, payload, _⟩
  · constructor
    · intro wf
      rcases complete wf with ⟨_, long, _⟩ | ⟨other, _⟩
      · exact ⟨version, long⟩
      · rw [version] at other
        cases other
    · rintro ⟨_, long⟩
      rw [WellFormed, declaredLength, if_pos ⟨(ipVersion_take (by omega) inside).trans version,
        size.symm ▸ long⟩, sub_take (by omega) inside, size, ← total]
  · refine iff_of_false (fun wf => ?_) (fun v4 => by rw [version] at v4; cases v4.1)
    rcases complete wf with ⟨other, _⟩ | ⟨_, _, total⟩
    · rw [version] at other
      cases other
    · omega

/-- The packets written to the TUN device are complete exactly when every plaintext that
passes the checks is IPv4 and declares at least a header. -/
theorem complete_packets_iff (wg : WgState HS) (env : Env) (datagram : Bytes) (addr : SocketAddrV6) :
    ∃ last outputs, wg.udpProcessTransport c env datagram addr = .ok (last, outputs) ∧
      ((∀ packet, .tunWrite packet ∈ outputs → WellFormed packet) ↔
        ∀ peer0 plain, wg.opened c datagram = some (peer0, plain) →
          ∀ len src dst, parseIpPacket plain = some (len, src, dst) →
            wg.findPeerByIp src = some peer0 → len ≤ plain.length →
            ipVersion plain = 4 ∧ 20 ≤ len) := by
  obtain ⟨last, ok⟩ := udpProcessTransport_outputs c wg env datagram addr
  refine ⟨last, _, ok, ?_⟩
  cases opens : wg.opened c datagram with
  | none => simp
  | some r =>
    obtain ⟨peer0, plain⟩ := r
    cases parsed : parseIpPacket plain with
    | none => simp +contextual [packetToWrite, parsed]
    | some header =>
      obtain ⟨len, src, dst⟩ := header
      by_cases allowed : wg.findPeerByIp src = some peer0
      · by_cases inside : len ≤ plain.length
        · simp only [Option.bind_some, packetToWrite_allowed parsed allowed, if_pos inside]
          simp [wellFormed_take_iff parsed inside, parsed, allowed, inside]
        · simp [packetToWrite_allowed parsed allowed, inside, parsed]
      · simp [packetToWrite, parsed, allowed]

/-- An IPv4 packet that declares no length makes the handler write an empty packet. -/
theorem empty_packet_written :
    ¬ ∀ {HS : Type} (c : Crypto HS) (wg : WgState HS) (env : Env) (datagram : Bytes)
      (addr : SocketAddrV6) last outputs,
      wg.udpProcessTransport c env datagram addr = .ok (last, outputs) →
      ∀ packet, .tunWrite packet ∈ outputs → WellFormed packet := by
  intro claim
  have opens : sampleReceiver.opened Crypto.transparent (sampleMessage (0x45 :: List.replicate 19 0)) =
      some (0, 0x45 :: List.replicate 19 0) := by decide
  have cut : sampleReceiver.packetToWrite 0 (0x45 :: List.replicate 19 0) = some [] := by decide
  obtain ⟨last, outputs⟩ := udpProcessTransport_outputs Crypto.transparent sampleReceiver sampleEnv
    (sampleMessage (0x45 :: List.replicate 19 0)) sampleAddr
  simp only [opens, Option.bind_some, cut] at outputs
  have wf := claim Crypto.transparent sampleReceiver sampleEnv _ sampleAddr last _ outputs []
    (by simp)
  exact absurd wf (by decide)

end Titun.WgState
