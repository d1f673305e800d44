import Titun.PacketBuffers

/-! What of earlier packets can get into the padding of a later one. -/
namespace Titun

open Transition

variable {HS : Type} (c : Crypto HS)

/-- How long the padding is: less than 16 bytes, none from the MTU on, and else up to a multiple of 16
or to the MTU. -/
structure PaddedTo (mtu len padded : Nat) : Prop where
  longer : len ≤ padded
  short : padded < len + 16
  unpadded : mtu ≤ len → padded = len
  below : len < mtu → padded ≤ mtu ∧ (16 ∣ padded ∨ padded = mtu)

theorem padded_length {packet : Bytes} (fits : packet.length ≤ BUFSIZE) (mtu : BitVec 32) :
    PaddedTo mtu.toNat packet.length (padded packet mtu).length := by
  rw [padded, List.length_append, List.length_replicate, padLen_toNat fits]
  by_cases long : mtu.toNat ≤ packet.length
  · rw [if_pos long]
    constructor <;> omega
  · rw [if_neg long]
    constructor <;> omega

namespace Tunnel

variable {c} {s s' : Tunnel HS}

/-- In any two runs of the program, whatever each has read into its buffer, a packet is followed by the
same zeros, as many as its length and the MTU ask for, and what is done with it depends on nothing else. -/
theorem padding_leaks_nothing {info info' : WgInfo} {secret secret' : U8Array 32} {first first' : BitVec 32}
    {now now' : Instant} {labels labels' : List Label}
    (run : Run (Step c) (start info secret first now) labels s)
    (run' : Run (Step c) (start info' secret' first' now') labels' s')
    {packet : Bytes} (fits : packet.length ≤ BUFSIZE) {mtu : BitVec 32}
    (under : s.program.wg.mtu = mtu) (under' : s'.program.wg.mtu = mtu) :
    ∃ plain zeros, plain = packet ++ List.replicate zeros 0 ∧ PaddedTo mtu.toNat packet.length plain.length ∧
      (∃ pkt, padPacket s.pkt packet mtu = .ok (pkt, plain) ∧ ∀ env,
        s.program.wg.tunPacketProcessing c env s.pkt packet = .ok ((s.program.wg.processPadded c env plain).1, pkt,
          (s.program.wg.processPadded c env plain).2)) ∧
      ∃ pkt, padPacket s'.pkt packet mtu = .ok (pkt, plain) ∧ ∀ env,
        s'.program.wg.tunPacketProcessing c env s'.pkt packet = .ok ((s'.program.wg.processPadded c env plain).1, pkt,
          (s'.program.wg.processPadded c env plain).2) := by
  have size := run_buffer (fun _ _ _ step => step) run
  have size' := run_buffer (fun _ _ _ step => step) run'
  have pads {t : Tunnel HS} (size : t.pkt.length = BUFSIZE) (under : t.program.wg.mtu = mtu) :
      ∃ pkt, padPacket t.pkt packet mtu = .ok (pkt, padded packet mtu) ∧ ∀ env,
        t.program.wg.tunPacketProcessing c env t.pkt packet =
          .ok ((t.program.wg.processPadded c env (padded packet mtu)).1, pkt,
            (t.program.wg.processPadded c env (padded packet mtu)).2) := by
    obtain ⟨pkt, pads, _⟩ := tunPacketProcessing_padded c t.program.wg sampleEnv size fits
    rw [under] at pads
    refine ⟨pkt, pads, fun env => ?_⟩
    obtain ⟨pkt', pads', processed⟩ := tunPacketProcessing_padded c t.program.wg env size fits
    rw [under] at pads' processed
    obtain ⟨rfl, _⟩ := Prod.mk.inj (Except.ok.inj (pads.symm.trans pads'))
    exact processed
  exact ⟨padded packet mtu, _, rfl, padded_length fits mtu, pads size under, pads size' under'⟩

theorem step_read_unparsed : ∃ pkt, Step Crypto.symbolic (start ⟨zeros 32, 0, 0⟩ (zeros 32) 1280 0)
    ⟨0, .read (List.replicate 40 0xff), sampleEnv⟩ ⟨.start ⟨zeros 32, 0, 0⟩ (zeros 32) 1280 0, pkt⟩ := by
  have fits : (List.replicate 40 0xff : Bytes).length ≤ BUFSIZE := by decide
  have unparsed : parseIpPacket (padded (List.replicate 40 0xff) 1280) = none := by decide +kernel
  generalize (List.replicate 40 0xff : Bytes) = packet at fits unparsed ⊢
  generalize began : (Program.start ⟨zeros 32, 0, 0⟩ (zeros 32) 1280 0 : Program SymbolicHs) = program
  have nothing : Op.begin Crypto.symbolic sampleEnv program.wg (.packet (padded packet 1280)) =
      .ok (program.wg, []) := by
    simp only [Op.begin, unparsed]
    rfl
  have idle : program.tasks 0 = [] := by
    rw [← began]
    rfl
  have step : Program.Step Crypto.symbolic program ⟨0, .start (.packet (padded packet 1280)), sampleEnv⟩
      ⟨program.wg, Function.update program.tasks 0 (program.tasks 0)⟩ := by
    rw [idle]
    exact .start idle trivial nothing
  rw [Function.update_eq_self] at step
  obtain ⟨pkt, _, pads⟩ := padPacket_eq (List.replicate BUFSIZE 0) packet 1280 List.length_replicate fits
  have mtu : program.wg.mtu = 1280 := by
    rw [← began]
    rfl
  refine ⟨pkt, ?_⟩
  rw [start, began]
  refine .read fits ?_ step
  rw [mtu]
  exact pads

theorem padding_leaks_nothing_after_longer :
    ∃ (labels : List Label) (s : Tunnel SymbolicHs),
      Run (Step Crypto.symbolic) (start ⟨zeros 32, 0, 0⟩ (zeros 32) 1280 0) labels s ∧
      ⟨0, .read (List.replicate 40 0xff), sampleEnv⟩ ∈ labels ∧
      ∃ pkt pkt', padPacket s.pkt [0x45, 0, 0, 2] 1280 = .ok (pkt, [0x45, 0, 0, 2] ++ List.replicate 12 0) ∧
        padPacket (start ⟨zeros 32, 0, 0⟩ (zeros 32) 1280 0 : Tunnel SymbolicHs).pkt [0x45, 0, 0, 2] 1280 =
          .ok (pkt', [0x45, 0, 0, 2] ++ List.replicate 12 0) := by
  obtain ⟨pkt, step⟩ := step_read_unparsed
  obtain ⟨plain, zeros, rfl, length, ⟨next, pads, _⟩, next', pads', _⟩ :=
    padding_leaks_nothing (.cons step .nil) .nil (show ([0x45, 0, 0, 2] : Bytes).length ≤ BUFSIZE by decide)
      (show _ = (1280 : BitVec 32) from rfl) rfl
  obtain rfl : zeros = 12 := by
    have mtu : (1280 : BitVec 32).toNat = 1280 := rfl
    have longer := length.longer
    have short := length.short
    have below := length.below
    simp only [mtu, List.length_append, List.length_replicate, List.length_cons, List.length_nil] at longer short below
    omega
  exact ⟨_, _, .cons step .nil, List.mem_singleton_self _, next, next', pads, pads'⟩

end Tunnel

end Titun
