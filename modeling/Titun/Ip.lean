import Titun.Types

/-! IP packet parsing. -/
namespace Titun

open Endian

/-- Parse an IPv4/v6 packet, returns total length, source, destination. -/
def parseIpPacket (packet : Bytes) : Option (Nat × IpAddr × IpAddr) :=
  if packet.length < 20 then none
  else
    let v := packet.getD 0 0 >>> 4
    if v = 4 then
      let len := ofBeBytes (sub packet 2 4)
      let src := BitVec.ofNat 32 (ofBeBytes (sub packet 12 16))
      let dst := BitVec.ofNat 32 (ofBeBytes (sub packet 16 20))
      some (len, .v4 src, .v4 dst)
    else if v = 6 then
      if packet.length < 40 then none
      else
        let len := ofBeBytes (sub packet 4 6)
        if packet.length < len then none
        else
          let src := BitVec.ofNat 128 (ofBeBytes (sub packet 8 24))
          let dst := BitVec.ofNat 128 (ofBeBytes (sub packet 24 40))
          some (len, .v6 src, .v6 dst)
    else none

/-- Convert IPv4 address to IPv4-mapped IPv6 address. -/
def mapIpv4ToIpv6 : SocketAddr → SocketAddrV6
  | .v4 ip port => ⟨0xffff#96 ++ ip, port, 0, 0⟩
  | .v6 a => a

/-- The version nibble of a packet. -/
def ipVersion (packet : Bytes) : UInt8 := packet.getD 0 0 >>> 4

/-- The length that the packet's own header declares: the total length of IPv4, the
payload length of IPv6 plus the 40 bytes of the header. -/
def declaredLength (packet : Bytes) : Option Nat :=
  if ipVersion packet = 4 ∧ 20 ≤ packet.length then some (ofBeBytes (sub packet 2 4))
  else if ipVersion packet = 6 ∧ 40 ≤ packet.length then some (ofBeBytes (sub packet 4 6) + 40)
  else none

/-- The header is complete and declares the length the packet has. -/
def WellFormed (packet : Bytes) : Prop := declaredLength packet = some packet.length

instance (packet : Bytes) : Decidable (WellFormed packet) :=
  inferInstanceAs (Decidable (_ = _))

theorem sub_append {p q : Bytes} (inside : stop ≤ p.length) : sub (p ++ q) start stop = sub p start stop := by
  unfold sub
  by_cases empty : stop ≤ start
  · simp [show stop - start = 0 by omega]
  · rw [List.drop_append_of_le_length (by omega), List.take_append_of_le_length]
    rw [List.length_drop]
    omega

@[simp] theorem sub_length (p : Bytes) (start stop : Nat) :
    (sub p start stop).length = min (stop - start) (p.length - start) := by simp [sub]

theorem getD_append {p q : Bytes} (nonempty : 0 < p.length) : (p ++ q).getD 0 0 = p.getD 0 0 := by
  cases p with
  | nil => cases nonempty
  | cons b rest => rfl

theorem WellFormed.cases {p : Bytes} (wf : WellFormed p) :
    (ipVersion p = 4 ∧ 20 ≤ p.length ∧ ofBeBytes (sub p 2 4) = p.length) ∨
    (ipVersion p = 6 ∧ 40 ≤ p.length ∧ ofBeBytes (sub p 4 6) + 40 = p.length) := by
  unfold WellFormed declaredLength at wf
  split_ifs at wf with v4 v6
  · exact Or.inl ⟨v4.1, v4.2, Option.some.inj wf⟩
  · exact Or.inr ⟨v6.1, v6.2, Option.some.inj wf⟩

theorem parseIpPacket_eq_some {packet : Bytes} (parsed : parseIpPacket packet = some (len, src, dst)) :
    (ipVersion packet = 4 ∧ 20 ≤ packet.length ∧ len = ofBeBytes (sub packet 2 4)) ∨
    (ipVersion packet = 6 ∧ 40 ≤ packet.length ∧ len = ofBeBytes (sub packet 4 6) ∧
      len ≤ packet.length) := by
  simp only [parseIpPacket] at parsed
  split_ifs at parsed with short v4 v6 short6 long
  · obtain ⟨rfl, _⟩ := Prod.mk.inj (Option.some.inj parsed)
    exact Or.inl ⟨v4, by omega, rfl⟩
  · obtain ⟨rfl, _⟩ := Prod.mk.inj (Option.some.inj parsed)
    exact Or.inr ⟨v6, by omega, rfl, by omega⟩

/-- Padding at the end changes nothing the parser reads of a well-formed packet. -/
theorem parseIpPacket_padded {p : Bytes} (wf : WellFormed p) (padding : Bytes) :
    parseIpPacket (p ++ padding) = parseIpPacket p ∧ (parseIpPacket p).isSome := by
  rcases wf.cases with ⟨version, long, len⟩ | ⟨version, long, len⟩
  · have nonempty : 0 < p.length := by omega
    have v : (p.getD 0 0 >>> 4) = 4 := version
    have short : ¬ p.length < 20 := by omega
    have shortPadded : ¬ (p ++ padding).length < 20 := by rw [List.length_append]; omega
    simp only [parseIpPacket, short, shortPadded, if_false, getD_append nonempty, v, if_true]
    rw [sub_append (by omega), sub_append (by omega), sub_append (by omega)]
    simp
  · have nonempty : 0 < p.length := by omega
    have v : (p.getD 0 0 >>> 4) = 6 := version
    have not4 : (6 : UInt8) ≠ 4 := by decide
    have short : ¬ p.length < 20 := by omega
    have shortPadded : ¬ (p ++ padding).length < 20 := by rw [List.length_append]; omega
    have short6 : ¬ p.length < 40 := by omega
    have shortPadded6 : ¬ (p ++ padding).length < 40 := by rw [List.length_append]; omega
    have payload : ¬ p.length < ofBeBytes (sub p 4 6) := by omega
    have payloadPadded : ¬ (p ++ padding).length < ofBeBytes (sub p 4 6) := by
      rw [List.length_append]; omega
    simp only [parseIpPacket, short, shortPadded, if_false, getD_append nonempty, v, if_true, not4,
      short6, shortPadded6]
    rw [sub_append (by omega), sub_append (by omega), sub_append (by omega)]
    simp [payload]
    omega

end Titun
