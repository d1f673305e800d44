import Titun.UdpProcessing

/-! What the tx task does with a packet from the TUN device. -/
namespace Titun

def PADDING_MASK : BitVec 64 := 0b1111

/-- Calculate padded length, i.e., next multiple of 16. The length will be at most `mtu`. -/
def padLen (len mtu : BitVec 64) : BitVec 64 :=
  if len ≥ mtu then len
  else
    let padded := (len &&& ~~~PADDING_MASK) + if len &&& PADDING_MASK = 0 then 0 else 16
    if padded < mtu then padded else mtu

theorem and_mask_toNat (len : BitVec 64) : (len &&& PADDING_MASK).toNat = len.toNat % 16 := by
  rw [BitVec.toNat_and]
  exact Nat.and_two_pow_sub_one_eq_mod _ 4

theorem and_not_mask_toNat (len : BitVec 64) :
    (len &&& ~~~PADDING_MASK).toNat = len.toNat - len.toNat % 16 := by
  have parts : (len &&& ~~~PADDING_MASK) + (len &&& PADDING_MASK) = len := by
    rw [BitVec.add_eq_or_of_and_eq_zero]
    · ext i h
      simp
      cases len[i] <;> simp
    · ext i h
      simp
      cases len[i] <;> simp
  have sum := congrArg BitVec.toNat parts
  have high : (len &&& ~~~PADDING_MASK).toNat ≤ len.toNat := by
    rw [BitVec.toNat_and]
    exact Nat.and_le_left
  have low : (len &&& PADDING_MASK).toNat ≤ len.toNat := by
    rw [BitVec.toNat_and]
    exact Nat.and_le_left
  rw [← and_mask_toNat]
  rw [BitVec.toNat_add] at sum
  omega

theorem padLen_bounds {len : BitVec 64} (fits : len.toNat ≤ BUFSIZE) (mtu : BitVec 64) :
    len.toNat ≤ (padLen len mtu).toNat ∧ (padLen len mtu).toNat ≤ BUFSIZE := by
  have size : BUFSIZE = 65536 := rfl
  have high := and_not_mask_toNat len
  have low := and_mask_toNat len
  simp only [padLen, ge_iff_le, BitVec.le_def, BitVec.lt_def, ← BitVec.toNat_inj, low]
  split_ifs <;> simp only [BitVec.toNat_add, high] at * <;> simp at * <;> omega

/-- Writes zeros to `buf[start..stop]`. -/
def zeroFill (buf : Bytes) (start stop : Nat) : Exec Bytes :=
  if start ≤ stop ∧ stop ≤ buf.length then
    .ok (buf.take start ++ List.replicate (stop - start) 0 ++ buf.drop stop)
  else .error .sliceOutOfRange

/-- Reads a packet into the buffer of the tx task and pads it: the buffer, which keeps what
earlier packets left in it, and the padded packet. -/
def padPacket (pkt packet : Bytes) (mtu : BitVec 32) : Exec (Bytes × Bytes) := do
  let pkt := packet ++ pkt.drop packet.length
  let paddedLen := (padLen (BitVec.ofNat 64 packet.length) (mtu.setWidth 64)).toNat
  -- Do not leak other packets' data!
  let pkt ← zeroFill pkt packet.length paddedLen
  return (pkt, pkt.take paddedLen)

theorem padPacket_eq (pkt packet : Bytes) (mtu : BitVec 32) (size : pkt.length = BUFSIZE)
    (fits : packet.length ≤ BUFSIZE) :
    ∃ next, next.length = BUFSIZE ∧ padPacket pkt packet mtu = .ok (next, packet ++ List.replicate
      ((padLen (BitVec.ofNat 64 packet.length) (mtu.setWidth 64)).toNat - packet.length) 0) := by
  have buffer : BUFSIZE = 65536 := rfl
  have number : (BitVec.ofNat 64 packet.length).toNat = packet.length := by
    rw [BitVec.toNat_ofNat, Nat.mod_eq_of_lt (by omega)]
  obtain ⟨longer, inside⟩ := padLen_bounds (number ▸ fits) (mtu.setWidth 64)
  rw [number] at longer
  generalize stops : (padLen (BitVec.ofNat 64 packet.length) (mtu.setWidth 64)).toNat = stop at *
  have whole : (packet ++ pkt.drop packet.length).length = BUFSIZE := by
    rw [List.length_append, List.length_drop]
    omega
  have rest : (packet ++ pkt.drop packet.length).drop stop = pkt.drop stop := by
    rw [List.drop_append, List.drop_of_length_le longer, List.nil_append, List.drop_drop]
    congr 1
    omega
  refine ⟨packet ++ List.replicate (stop - packet.length) 0 ++ pkt.drop stop, ?_, ?_⟩
  · simp only [List.length_append, List.length_replicate, List.length_drop]
    omega
  · have filled : zeroFill (packet ++ pkt.drop packet.length) packet.length stop =
        .ok (packet ++ List.replicate (stop - packet.length) 0 ++ pkt.drop stop) := by
      rw [zeroFill, if_pos ⟨longer, whole ▸ inside⟩, rest, List.take_left]
    have taken : (packet ++ List.replicate (stop - packet.length) 0 ++ pkt.drop stop).take stop =
        packet ++ List.replicate (stop - packet.length) 0 := by
      rw [List.take_append_of_le_length (by simp; omega), List.take_of_length_le (by simp; omega)]
    simp only [padPacket, stops, filled, bind, Except.bind, taken]
    rfl

namespace WgState

variable {HS : Type} (c : Crypto HS)

/-- The critical section of `tun_packet_processing`: whether to start a handshake, and what
to send. -/
def sendOrEnqueue (wg : WgState HS) (env : Env) (peer0 : PeerRef) (packet : Bytes) :
    (Bool × List Output) × WgState HS :=
  let peer := wg.peers peer0
  match peer.getEndpoint with
  | none => ((false, []), wg)
  | some endpoint =>
    match peer.findTransportToSend with
    | some t =>
      let ((result, shouldHandshake), t) := t.encrypt c packet
      let peer := peer.setTransportToSend t
      let handshake := shouldHandshake && peer.reallyShouldHandshake env.now
      match result with
      | none => ((handshake, []), wg.setPeerState peer0 peer)
      | some encrypted =>
        let peer := (peer.countSend encrypted.length).onSendTransport env.now
        ((handshake, [.sendTo encrypted endpoint]), wg.setPeerState peer0 peer)
    | none =>
      let peer := peer.enqueuePacket env.now packet
      ((peer.reallyShouldHandshake env.now, []), wg.setPeerState peer0 peer)

/-- One packet from the TUN device, with the buffer `pkt` of the tx task. The buffer for the
encrypted packet has `BUFSIZE + 32` bytes. -/
def tunPacketProcessing (wg : WgState HS) (env : Env) (pkt packet : Bytes) :
    Exec (WgState HS × Bytes × List Output) := do
  let (pkt, packet) ← padPacket pkt packet wg.mtu
  match parseIpPacket packet with
  | none => return (wg, pkt, [])
  | some (_, _, dst) =>
    match wg.findPeerByIp dst with
    | none => return (wg, pkt, [])
    | some peer0 =>
      if packet.length + 32 > BUFSIZE + 32 then .error .sliceOutOfRange
      let ((handshake, outputs), wg) := wg.sendOrEnqueue c env peer0 packet
      let wg := if handshake then wg.doHandshake env peer0 else wg
      return (wg, pkt, outputs)

end WgState

end Titun
