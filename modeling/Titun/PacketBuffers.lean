import Titun.PacketQueue

/-! The buffers that a packet from the TUN device passes through: the one it is read into, the one it
is encrypted into, its place in the queue of a peer, and the one it is encrypted into from there. -/
namespace Titun

open BoundedQueue Transition

variable {HS : Type} (c : Crypto HS)

/-- The sealed packet has room in the buffer of the rx task. -/
def Flushable (packet : Bytes) : Prop := packet.length + 32 ≤ BUFSIZE

instance (packet : Bytes) : Decidable (Flushable packet) := inferInstanceAs (Decidable (_ ≤ _))

/-- What the tx task does with a padded packet, whatever else is in its buffer. -/
def WgState.processPadded (wg : WgState HS) (env : Env) (plain : Bytes) : WgState HS × List Output :=
  match parseIpPacket plain with
  | none => (wg, [])
  | some (_, _, dst) =>
    match wg.findPeerByIp dst with
    | none => (wg, [])
    | some peer0 =>
      let ((handshake, outputs), wg) := wg.sendOrEnqueue c env peer0 plain
      (if handshake then wg.doHandshake env peer0 else wg, outputs)

/-- The packet padded by the length that the MTU asks for. -/
def padded (packet : Bytes) (mtu : BitVec 32) : Bytes :=
  packet ++ List.replicate
    ((padLen (BitVec.ofNat 64 packet.length) (mtu.setWidth 64)).toNat - packet.length) 0

section padding

variable {pkt packet : Bytes}

theorem packet_number (fits : packet.length ≤ BUFSIZE) :
    (BitVec.ofNat 64 packet.length).toNat = packet.length := by
  have size : BUFSIZE = 65536 := rfl
  rw [BitVec.toNat_ofNat]
  apply Nat.mod_eq_of_lt
  omega

theorem roundUp_toNat (fits : packet.length ≤ BUFSIZE) :
    ((BitVec.ofNat 64 packet.length &&& ~~~PADDING_MASK) +
      if BitVec.ofNat 64 packet.length &&& PADDING_MASK = 0 then 0 else 16).toNat =
      (packet.length + 15) / 16 * 16 := by
  have size : BUFSIZE = 65536 := rfl
  have zero : (0 : BitVec 64).toNat = 0 := rfl
  have sixteen : (16 : BitVec 64).toNat = 16 := rfl
  have high := and_not_mask_toNat (BitVec.ofNat 64 packet.length)
  have low := and_mask_toNat (BitVec.ofNat 64 packet.length)
  rw [packet_number fits] at high low
  rw [BitVec.toNat_add, high]
  split_ifs with aligned
  · rw [aligned, zero] at low
    rw [zero]
    omega
  · have rest : packet.length % 16 ≠ 0 := fun none => aligned (BitVec.eq_of_toNat_eq (low.trans none))
    rw [sixteen]
    omega

/-- How far a packet is padded: not at all from the MTU on, and else to the next multiple of 16 or to
the MTU, whichever is less. -/
theorem padLen_toNat (fits : packet.length ≤ BUFSIZE) (mtu : BitVec 32) :
    (padLen (BitVec.ofNat 64 packet.length) (mtu.setWidth 64)).toNat =
      if mtu.toNat ≤ packet.length then packet.length
      else min mtu.toNat ((packet.length + 15) / 16 * 16) := by
  have wide : (mtu.setWidth 64).toNat = mtu.toNat := by
    have small := mtu.isLt
    rw [BitVec.toNat_setWidth]
    apply Nat.mod_eq_of_lt
    omega
  have number := packet_number fits
  have rounded := roundUp_toNat fits
  simp only [padLen, ge_iff_le, BitVec.le_def, BitVec.lt_def, rounded, number, wide]
  by_cases long : mtu.toNat ≤ packet.length
  · rw [if_pos long, if_pos long, number]
  rw [if_neg long, if_neg long]
  by_cases next : (packet.length + 15) / 16 * 16 < mtu.toNat
  · rw [if_pos next, rounded, min_eq_right next.le]
  · rw [if_neg next, wide, min_eq_left (Nat.le_of_not_lt next)]

/-- Padding does not decide whether there is room, whatever the MTU. -/
theorem flushable_padded (fits : packet.length ≤ BUFSIZE)
    (padded : padPacket pkt packet mtu = .ok (next, plain)) (size : pkt.length = BUFSIZE) :
    next.length = BUFSIZE ∧ (Flushable plain ↔ Flushable packet) := by
  obtain ⟨buffer, whole, done⟩ := padPacket_eq pkt packet mtu size fits
  obtain ⟨rfl, rfl⟩ := Prod.mk.inj (Except.ok.inj (padded.symm.trans done))
  refine ⟨whole, ?_⟩
  have buffer : BUFSIZE = 65536 := rfl
  rw [Flushable, Flushable, List.length_append, List.length_replicate, padLen_toNat fits]
  split_ifs <;> omega

theorem padded_inside (fits : packet.length ≤ BUFSIZE) (mtu : BitVec 32) : (padded packet mtu).length ≤ BUFSIZE := by
  have number := packet_number fits
  obtain ⟨longer, inside⟩ := padLen_bounds (number ▸ fits) (mtu.setWidth 64)
  rw [padded, List.length_append, List.length_replicate]
  omega

/-- Neither the zeros nor the sealed packet go beyond the buffers of the tx task, and what is done with a
packet is decided by its padded form. -/
theorem tunPacketProcessing_padded (wg : WgState HS) (env : Env) (size : pkt.length = BUFSIZE)
    (fits : packet.length ≤ BUFSIZE) : ∃ next,
    padPacket pkt packet wg.mtu = .ok (next, padded packet wg.mtu) ∧
    wg.tunPacketProcessing c env pkt packet =
      .ok ((wg.processPadded c env (padded packet wg.mtu)).1, next,
        (wg.processPadded c env (padded packet wg.mtu)).2) := by
  obtain ⟨next, _, pads⟩ := padPacket_eq pkt packet wg.mtu size fits
  rw [← padded] at pads
  refine ⟨next, pads, ?_⟩
  have inside := padded_inside fits wg.mtu
  rw [WgState.tunPacketProcessing, pads, ok_bind, WgState.processPadded]
  dsimp only
  cases parseIpPacket (padded packet wg.mtu) with
  | none => rfl
  | some header =>
    obtain ⟨len, src, dst⟩ := header
    cases found : wg.findPeerByIp dst with
    | none =>
      simp only [found]
      rfl
    | some peer0 =>
      have room : ¬ (padded packet wg.mtu).length + 32 > BUFSIZE + 32 := by omega
      simp only [found, if_neg room]
      rfl

end padding

namespace WgState

theorem flushQueue_outcome {t : Transport} {packets : List Bytes} (addr : SocketAddrV6)
    (left : t.sendCounter.toNat + packets.length ≤ REJECT_AFTER_MESSAGES.toNat) :
    (∀ p ∈ packets, Flushable p) ∧ (∃ r, flushQueue c t addr packets = .ok r) ∨
    (∃ p ∈ packets, ¬ Flushable p) ∧ flushQueue c t addr packets = .error .sliceOutOfRange := by
  induction packets generalizing t with
  | nil =>
    refine .inl ⟨fun p member => ?_, _, rfl⟩
    cases member
  | cons p packets ih =>
    by_cases room : Flushable p
    swap
    · refine .inr ⟨⟨p, List.mem_cons_self, room⟩, ?_⟩
      rw [flushQueue, if_pos (Nat.lt_of_not_le room)]
      rfl
    rw [List.length_cons] at left
    rw [flushQueue, if_neg (Nat.not_lt.mpr room)]
    cases sealed : (t.encrypt c p).1.1 with
    | none =>
      obtain ⟨spent, _⟩ := Transport.encrypt_eq_none c sealed
      rw [BitVec.le_def] at spent
      omega
    | some out =>
      obtain ⟨below, _, counted⟩ := Transport.encrypt_eq_some c sealed
      have next : ((t.encrypt c p).2.sendCounter).toNat = t.sendCounter.toNat + 1 := by
        have bound : REJECT_AFTER_MESSAGES.toNat = 2 ^ 64 - 17 := rfl
        have one : (1 : BitVec 64).toNat = 1 := rfl
        rw [BitVec.lt_def] at below
        rw [counted, BitVec.toNat_add, one, Nat.mod_eq_of_lt]
        omega
      have later := ih (t := (t.encrypt c p).2) (by omega)
      simp only [sealed, unwrap, ok_bind]
      rcases later with ⟨all, r, ok⟩ | ⟨⟨q, member, long⟩, failed⟩
      · refine .inl ⟨List.forall_mem_cons.mpr ⟨room, all⟩, ?_⟩
        rw [ok]
        exact ⟨_, rfl⟩
      · refine .inr ⟨⟨q, List.mem_cons_of_mem p member, long⟩, ?_⟩
        rw [failed]
        rfl

theorem flushQueue_overrun {t : Transport} {packets : List Bytes}
    (failed : flushQueue c t addr packets = .error .sliceOutOfRange) : ∃ p ∈ packets, ¬ Flushable p := by
  induction packets generalizing t with
  | nil => cases failed
  | cons p packets ih =>
    by_cases room : Flushable p
    swap
    · exact ⟨p, List.mem_cons_self, room⟩
    rw [flushQueue, if_neg (Nat.not_lt.mpr room)] at failed
    cases sealed : (t.encrypt c p).1.1 with
    | none =>
      simp only [sealed] at failed
      cases failed
    | some out =>
      simp only [sealed, unwrap, ok_bind] at failed
      cases flushed : flushQueue c (t.encrypt c p).2 addr packets with
      | error e =>
        rw [flushed] at failed
        obtain rfl := Except.error.inj failed
        obtain ⟨q, member, long⟩ := ih flushed
        exact ⟨q, List.mem_cons_of_mem p member, long⟩
      | ok r =>
        rw [flushed] at failed
        cases failed

theorem finishSession_flush {wg : WgState HS} (pending : (wg.peers peer).handshake = some h) (env : Env)
    (addr : SocketAddrV6) (peerId : WgId) (hs : HS) :
    match flushQueue c (Transport.newFromHs c env.now h.selfId peerId hs) addr (wg.peers peer).queue with
    | .ok _ => ∃ r, wg.finishSession c env addr peerId hs peer = .ok r
    | .error e => wg.finishSession c env addr peerId hs peer = .error e := by
  simp only [finishSession, pending, unwrap_some, ok_bind, PeerState.roam_eq]
  split_ifs with inner
  · have empty : (wg.peers peer).queue = [] := List.isEmpty_iff.mp inner
    rw [empty]
    exact ⟨_, rfl⟩
  · cases flushed : flushQueue c (Transport.newFromHs c env.now h.selfId peerId hs) addr (wg.peers peer).queue with
    | ok r =>
      change ∃ r, (flushQueue c _ addr (wg.peers peer).queue >>= _) = .ok r
      rw [flushed, ok_bind]
      exact ⟨_, rfl⟩
    | error e =>
      change (flushQueue c _ addr (wg.peers peer).queue >>= _) = _
      rw [flushed, error_bind]

theorem finishSession_outcome {wg : WgState HS} (pending : (wg.peers peer).handshake = some h)
    (few : (wg.peers peer).queue.length ≤ QUEUE_SIZE) (env : Env) (addr : SocketAddrV6) (peerId : WgId) (hs : HS) :
    (∀ p ∈ (wg.peers peer).queue, Flushable p) ∧
      (∃ r, wg.finishSession c env addr peerId hs peer = .ok r) ∨
    (∃ p ∈ (wg.peers peer).queue, ¬ Flushable p) ∧
      wg.finishSession c env addr peerId hs peer = .error .sliceOutOfRange := by
  have finished := finishSession_flush c pending env addr peerId hs
  have left : (Transport.newFromHs c env.now h.selfId peerId hs).sendCounter.toNat +
      (wg.peers peer).queue.length ≤ REJECT_AFTER_MESSAGES.toNat := by
    have none : (Transport.newFromHs c env.now h.selfId peerId hs).sendCounter.toNat = 0 := rfl
    have bound : REJECT_AFTER_MESSAGES.toNat = 2 ^ 64 - 17 := rfl
    have size : QUEUE_SIZE = 16 := rfl
    omega
  rcases flushQueue_outcome c addr left with ⟨all, r, ok⟩ | ⟨long, failed⟩
  · rw [ok] at finished
    exact .inl ⟨all, finished⟩
  · rw [failed] at finished
    exact .inr ⟨long, finished⟩

theorem finishSession_overrun {wg : WgState HS}
    (failed : wg.finishSession c env addr peerId hs peer = .error .sliceOutOfRange) :
    ∃ p ∈ (wg.peers peer).queue, ¬ Flushable p := by
  cases pending : (wg.peers peer).handshake with
  | none =>
    simp only [finishSession, pending] at failed
    cases failed
  | some h =>
    have finished := finishSession_flush c pending env addr peerId hs
    cases flushes : flushQueue c (Transport.newFromHs c env.now h.selfId peerId hs) addr
        (wg.peers peer).queue with
    | ok r =>
      rw [flushes] at finished
      obtain ⟨_, ok⟩ := finished
      cases ok.symm.trans failed
    | error e =>
      rw [flushes] at finished
      obtain rfl := Except.error.inj (finished.symm.trans failed)
      exact flushQueue_overrun c flushes

theorem decideTransport_queue (wg : WgState HS) (env : Env) (p : Bytes) (addr : SocketAddrV6) (selfId : WgId)
    (peer ref : PeerRef) :
    ((wg.decideTransport c env p addr selfId peer).2.peers ref).queue = (wg.peers ref).queue := by
  have kept {q : PeerState HS} (queue : q.queue = (wg.peers peer).queue) :
      ((wg.setPeerState peer q).peers ref).queue = (wg.peers ref).queue := by
    rw [setPeerState]
    dsimp only
    by_cases here : ref = peer
    · rw [here, Function.update_self, queue]
    · rw [Function.update_of_ne here]
  rcases decideTransport_cases c wg env p addr selfId peer with ⟨t, h, plain, _, _, _, decided⟩ | ⟨_, decided⟩
  · rw [decided]
    exact kept rfl
  · rw [decided]
    exact kept rfl

theorem acceptInitiation_queue {wg next : WgState HS}
    (ok : wg.acceptInitiation c env p addr r peer = .ok (next, outputs)) (ref : PeerRef) :
    (next.peers ref).queue = (wg.peers ref).queue := by
  have kept {q : PeerState HS} {after : WgState HS} (peers : after.peers = Function.update wg.peers peer q)
      (queue : q.queue = (wg.peers peer).queue) : (after.peers ref).queue = (wg.peers ref).queue := by
    rw [peers]
    by_cases here : ref = peer
    · rw [here, Function.update_self, queue]
    · rw [Function.update_of_ne here]
  rcases acceptInitiation_cases c ok with ⟨_, _, _, rfl⟩ | ⟨response, hs, mac1, q, _, _, _, _, leaves, rfl⟩
  · exact kept rfl rfl
  · exact kept (dropGuards_peers ..) leaves.queue

end WgState

namespace Section

/-- The section takes a packet on its way. -/
def TakesPacket : Section HS → Prop
  | send .. | finish .. => True
  | _ => False

theorem run_queue {sec : Section HS} {wg next : WgState HS} (ok : sec.run c env wg = .ok (next, more))
    (waits : packet ∈ (next.peers ref).queue) :
    packet ∈ (wg.peers ref).queue ∨ packet ∈ sec.arrivals ref := by
  have holds {after : WgState HS} (held : wg.Holds after) (same : after = next) :
      packet ∈ (wg.peers ref).queue ∨ packet ∈ sec.arrivals ref := by
    rw [← same, (held ref).queue] at waits
    exact .inl waits
  have empties {peer : PeerRef} {after : WgState HS} (emptied : WgState.Empties peer wg after)
      (same : after = next) : packet ∈ (wg.peers ref).queue ∨ packet ∈ sec.arrivals ref := by
    by_cases here : ref = peer
    · rw [← same, here, emptied.1] at waits
      cases waits
    · rw [← same, (emptied.2 ref here).queue] at waits
      exact .inl waits
  cases sec with
  | accept p addr r peer =>
    obtain ⟨⟨_, _⟩, accepted, ok⟩ := bind_eq_ok.mp ok
    obtain ⟨rfl, rfl⟩ := Prod.mk.inj (Except.ok.inj ok)
    rw [WgState.acceptInitiation_queue c accepted] at waits
    exact .inl waits
  | verify p addr selfId peer =>
    obtain ⟨⟨verified, _⟩, verifies, ok⟩ := bind_eq_ok.mp ok
    have held := WgState.verifyResponse_holds c verifies
    cases verified <;> obtain ⟨rfl, rfl⟩ := Prod.mk.inj (Except.ok.inj ok) <;> exact holds held rfl
  | finish p addr selfId peerId hs peer =>
    obtain ⟨⟨_, _⟩, finished, ok⟩ := bind_eq_ok.mp ok
    obtain ⟨rfl, rfl⟩ := Prod.mk.inj (Except.ok.inj ok)
    exact empties (WgState.finishSession_flushes c finished).1 rfl
  | cookie p peer =>
    obtain ⟨_, accepted, ok⟩ := bind_eq_ok.mp ok
    obtain ⟨rfl, rfl⟩ := Prod.mk.inj (Except.ok.inj ok)
    exact holds (WgState.acceptCookieReply_holds c accepted) rfl
  | decide p addr selfId peer =>
    obtain ⟨rfl, rfl⟩ := Prod.mk.inj (Except.ok.inj ok)
    refine .inl ?_
    have kept := WgState.decideTransport_queue c wg env p addr selfId peer ref
    exact kept ▸ waits
  | send p peer =>
    have same : (wg.sendOrEnqueue c env peer p).2 = next := (Prod.mk.inj (Except.ok.inj ok)).1
    rcases WgState.sendOrEnqueue_queues c wg env peer p with ⟨_, sent⟩ | ⟨_, _, held, _⟩ | ⟨_, _, _, queued⟩
    · rw [← same, sent] at waits
      exact .inl waits
    · exact holds held same
    · rw [← same, queued] at waits
      by_cases here : ref = peer
      · subst here
        rw [Function.update_self] at waits
        rcases List.mem_append.mp waits with old | new
        · exact .inl (List.mem_of_mem_drop old)
        · exact .inr (by rwa [arrivals, if_pos rfl])
      · rw [Function.update_of_ne here] at waits
        exact .inl waits
  | setEndpoint addr peer =>
    obtain ⟨q, set, ok⟩ := bind_eq_ok.mp ok
    obtain ⟨rfl, rfl⟩ := Prod.mk.inj (Except.ok.inj ok)
    obtain ⟨_, rfl⟩ := PeerState.setEndpoint_roamed set
    exact holds (WgState.Holds.setPeerState (.roamed _ addr)) rfl
  | insertId selfId peer =>
    obtain ⟨rfl, rfl⟩ := Prod.mk.inj (Except.ok.inj ok)
    exact .inl waits
  | doHandshake peer =>
    obtain ⟨rfl, rfl⟩ := Prod.mk.inj (Except.ok.inj ok)
    exact holds (WgState.doHandshake_holds wg env peer) rfl
  | keepalive peer =>
    obtain ⟨rfl, rfl⟩ := Prod.mk.inj (Except.ok.inj ok)
    exact holds (WgState.doKeepalive1_holds c wg env peer) rfl
  | rearm peer | dropScope peer =>
    obtain ⟨rfl, rfl⟩ := Prod.mk.inj (Except.ok.inj ok)
    refine holds (WgState.Holds.setPeerState ?_) rfl
    exact .of_eq rfl rfl rfl
  | dropHandshake peer =>
    obtain ⟨rfl, rfl⟩ := Prod.mk.inj (Except.ok.inj ok)
    refine holds (WgState.Holds.of_update (WgState.dropGuards_peers ..) ?_) rfl
    exact .of_eq rfl rfl rfl
  | clear peer =>
    obtain ⟨rfl, rfl⟩ := Prod.mk.inj (Except.ok.inj ok)
    exact empties (WgState.clearPeer_empties wg env peer) rfl
  | addPeer publicKey =>
    obtain ⟨rfl, rfl⟩ := Prod.mk.inj (Except.ok.inj ok)
    by_cases listed : (wg.pubkeyMap.get publicKey).isSome = true
    · exact holds (.of_peers (by rw [WgState.addPeer, if_pos listed])) rfl
    · have added : (wg.addPeer env publicKey).2.peers =
          Function.update wg.peers wg.nextPeer (.new publicKey env.now) := by
        rw [WgState.addPeer, if_neg listed]
      exact empties (.of_update added rfl) rfl
  | configure command peer =>
    obtain ⟨_, configured, ok⟩ := bind_eq_ok.mp ok
    obtain ⟨rfl, rfl⟩ := Prod.mk.inj (Except.ok.inj ok)
    rcases WgState.configure_queues configured with ⟨_, held⟩ | ⟨_, emptied⟩
    · exact holds held rfl
    · exact empties emptied rfl
  | unlist publicKey =>
    simp only [run] at ok
    split at ok <;> obtain ⟨rfl, rfl⟩ := Prod.mk.inj (Except.ok.inj ok) <;> exact .inl waits
  | detach peer =>
    obtain ⟨_, detached, ok⟩ := bind_eq_ok.mp ok
    obtain ⟨rfl, rfl⟩ := Prod.mk.inj (Except.ok.inj ok)
    exact empties (WgState.detach_empties detached) rfl
  | storeKey key =>
    obtain ⟨rfl, rfl⟩ := Prod.mk.inj (Except.ok.inj ok)
    exact .inl waits

end Section

theorem Op.begin_sends {op : Op} {wg next : WgState HS} {plain : Bytes}
    (ok : op.begin c env wg = .ok (next, task)) (sends : Section.send plain peer ∈ task) :
    op = .packet plain := by
  cases op with
  | packet padded =>
    simp only [Op.begin] at ok
    split at ok
    · obtain ⟨_, rfl⟩ := Prod.mk.inj (Except.ok.inj ok)
      cases sends
    · split at ok
      · obtain ⟨_, rfl⟩ := Prod.mk.inj (Except.ok.inj ok)
        cases sends
      · obtain ⟨_, rfl⟩ := Prod.mk.inj (Except.ok.inj ok)
        obtain ⟨rfl, _⟩ := Section.send.inj (List.mem_singleton.mp sends)
        rfl
  | config op =>
    have does := Op.begin_does c ok
    cases op with
    | addPeer pk | removePeer pk =>
      obtain ⟨_, rfl⟩ := does
      cases List.mem_singleton.mp sends
    | setPeer command =>
      obtain ⟨_, rfl | ⟨_, _, rfl⟩⟩ := does
      · cases sends
      · cases List.mem_singleton.mp sends
    | removeAllPeers order =>
      obtain ⟨_, rfl⟩ := does
      obtain ⟨_, _, same⟩ := List.mem_map.mp sends
      cases same
  | setKey order key =>
    obtain ⟨_, rfl⟩ := Op.begin_does c ok
    rcases List.mem_append.mp sends with clears | stores
    · obtain ⟨_, _, same⟩ := List.mem_map.mp clears
      cases same
    · cases List.mem_singleton.mp stores
  | datagram bytes addr =>
    obtain ⟨_, received⟩ := Op.begin_does c ok
    cases received with
    | nothing => cases sends
    | accept | verify | cookie | decide => cases List.mem_singleton.mp sends
  | timer ref kind =>
    obtain ⟨_, rfl | rfl⟩ := Op.begin_does c ok
    · cases sends
    · cases kind <;> simp [TimerKind.sections] at sends
  | _ =>
    obtain ⟨rfl, _⟩ := Op.begin_does c ok
    cases sends

/-- The program, with the buffer that its tx task reads packets into. -/
structure Tunnel (HS : Type) where
  program : Program HS
  pkt : Bytes

namespace Tunnel

inductive Event where
  /-- The tx task reads a packet. -/
  | read (packet : Bytes)
  | other (event : Program.Event)

structure Label where
  task : Nat
  event : Event
  env : Env

def start (info : WgInfo) (cookieSecret : U8Array 32) (mtu : BitVec 32) (now : Instant) : Tunnel HS :=
  ⟨.start info cookieSecret mtu now, List.replicate BUFSIZE 0⟩

/-- A packet is padded in the buffer, which keeps what earlier packets left in it. -/
inductive Step (s : Tunnel HS) : Label → Tunnel HS → Prop where
  | read {packet pkt plain : Bytes} {i : Nat} {env : Env} {program : Program HS} : packet.length ≤ BUFSIZE →
      padPacket s.pkt packet s.program.wg.mtu = .ok (pkt, plain) →
      Program.Step c s.program ⟨i, .start (.packet plain), env⟩ program →
      Step s ⟨i, .read packet, env⟩ ⟨program, pkt⟩
  | other {event : Program.Event} {i : Nat} {env : Env} {program : Program HS} :
      (∀ plain, event ≠ .start (.packet plain)) → Program.Step c s.program ⟨i, event, env⟩ program →
      Step s ⟨i, .other event, env⟩ ⟨program, s.pkt⟩

/-- Packets of up to `n` bytes are read, whatever the MTU is then. -/
def Label.ReadsUpTo (n : Nat) (l : Label) : Prop :=
  ∀ packet, l.event = .read packet → packet.length ≤ n

/-- Packets of up to `n` bytes are read, under one MTU. -/
def ReadsUpTo (n : Nat) (mtu : BitVec 32) (s : Tunnel HS) (l : Label) : Prop :=
  ∀ packet, l.event = .read packet → packet.length ≤ n ∧ s.program.wg.mtu = mtu

theorem readsUpTo_other {s : Tunnel HS} : s.ReadsUpTo n mtu ⟨i, .other event, env⟩ := by
  intro packet same
  cases same

theorem ReadsUpTo.label {s : Tunnel HS} {l : Label} (reads : s.ReadsUpTo n mtu l) : l.ReadsUpTo n := by
  intro packet same
  exact (reads packet same).1

/-- No section that takes a packet on its way leaves a buffer. -/
def WithinBuffers (s : Tunnel HS) : Prop :=
  ∀ i, ∀ sec ∈ s.program.tasks i, sec.TakesPacket → ∀ env, sec.run c env s.program.wg ≠ .error .sliceOutOfRange

variable {c} {s next : Tunnel HS} {l : Label}

theorem Step.buffer (step : Step c s l next) (size : s.pkt.length = BUFSIZE) : next.pkt.length = BUFSIZE := by
  cases step with
  | read fits padded _ => exact (flushable_padded fits padded size).1
  | other => exact size

theorem run_buffer {steps : Tunnel HS → Label → Tunnel HS → Prop}
    (isStep : ∀ s l next, steps s l next → Step c s l next)
    (run : Run steps (start info secret mtu now) labels s) : s.pkt.length = BUFSIZE := by
  apply run.invariant (fun s => s.pkt.length = BUFSIZE)
  · intro s l next size step
    exact (isStep s l next step).buffer size
  · exact List.length_replicate

/-- Every packet that waits, in a queue or for its peer, has room in the buffer of the rx task. -/
structure Roomy (s : Tunnel HS) : Prop where
  buffer : s.pkt.length = BUFSIZE
  queues : ∀ ref, ∀ p ∈ (s.program.wg.peers ref).queue, Flushable p
  sends : ∀ i packet peer, .send packet peer ∈ s.program.tasks i → Flushable packet

theorem start_roomy {info : WgInfo} {secret : U8Array 32} {mtu : BitVec 32} {now : Instant} :
    (start info secret mtu now : Tunnel HS).Roomy := by
  constructor
  · exact List.length_replicate
  · intro ref p waits
    cases waits
  · intro i packet peer waits
    cases waits

theorem Roomy.program {program : Program HS} {pkt : Bytes} {i : Nat} {event : Program.Event} (roomy : s.Roomy)
    (step : Program.Step c s.program ⟨i, event, env⟩ program) (size : pkt.length = BUFSIZE)
    (room : ∀ plain, event = .start (.packet plain) → Flushable plain) : Roomy ⟨program, pkt⟩ := by
  obtain ⟨before, buffer⟩ := s
  cases step with
  | @start _ op _ wg task idle enabled ok =>
    refine ⟨size, fun ref p waits => ?_, fun j packet peer waits => ?_⟩
    · have held := Op.begin_holds ok ref
      rw [held.queue] at waits
      exact roomy.queues ref p waits
    · rcases Program.mem_update waits with ⟨_, new⟩ | ⟨_, old⟩
      · exact room packet (congrArg Program.Event.start (Op.begin_sends c ok new))
      · exact roomy.sends j packet peer old
  | @proceed _ sec rest more _ wg head free ok =>
    have first : sec ∈ before.tasks i := by
      rw [head]
      exact List.mem_cons_self
    refine ⟨size, fun ref p waits => ?_, fun j packet peer waits => ?_⟩
    · rcases Section.run_queue c ok waits with old | new
      · exact roomy.queues ref p old
      · cases sec with
        | send packet peer =>
          rw [Section.arrivals] at new
          split_ifs at new
          · rw [List.mem_singleton.mp new]
            exact roomy.sends i packet peer first
          · cases new
        | _ => cases new
    · rcases Program.mem_update waits with ⟨_, new⟩ | ⟨_, old⟩
      · rcases List.mem_append.mp new with leads | later
        · cases Section.run_leads c ok _ leads
        · exact roomy.sends i packet peer (by rw [head]; exact List.mem_cons_of_mem sec later)
      · exact roomy.sends j packet peer old

theorem Roomy.step (roomy : s.Roomy) (step : Step c s l next) (reads : l.ReadsUpTo n)
    (short : n + 32 ≤ BUFSIZE) : next.Roomy := by
  have size := step.buffer roomy.buffer
  cases step with
  | @read packet pkt plain i env program fits padded step =>
    apply roomy.program step size
    intro _ same
    obtain rfl := Op.packet.inj (Program.Event.start.inj same)
    apply (flushable_padded fits padded roomy.buffer).2.mpr
    have bounded := reads packet rfl
    rw [Flushable]
    omega
  | other apart step =>
    apply roomy.program step size
    intro plain same
    exact absurd same (apart plain)

/-- The MTU may change between any two packets. -/
theorem run_roomy (short : n + 32 ≤ BUFSIZE)
    (run : Run (fun s l next => Step c s l next ∧ l.ReadsUpTo n) (start info secret mtu now) labels s) :
    s.Roomy := by
  apply run.invariant Roomy
  · intro s l next roomy step
    exact roomy.step step.1 step.2 short
  · exact start_roomy

theorem Roomy.within (roomy : s.Roomy) : s.WithinBuffers c := by
  intro i sec member carries env failed
  cases sec with
  | send packet peer => cases failed
  | finish p addr selfId peerId hs peer =>
    cases finished : s.program.wg.finishSession c env addr peerId hs peer with
    | ok r =>
      simp only [Section.run, finished] at failed
      cases failed
    | error e =>
      simp only [Section.run, finished] at failed
      obtain rfl := Except.error.inj failed
      obtain ⟨packet, waits, long⟩ := WgState.finishSession_overrun c finished
      exact long (roomy.queues peer packet waits)
  | _ => cases carries

section Long

def sampleResponded : List Program.Label :=
  [Program.starts 0 (.config (.addPeer (zeros 32))), Program.proceeds 0,
    Program.starts 0 (.config (.setPeer { Program.sampleConfiguration with allowedIps := {(.v4 0, 0)} })),
    Program.proceeds 0] ++ Program.sampleInitiating ++ Program.sampleVerifying ++ [Program.proceeds 0]

def longHeader : Bytes := [0x45, 0, 0xff, 0xe1] ++ List.replicate 16 0

def longPacket : Bytes := longHeader ++ List.replicate 65485 0

theorem longPacket_length : longPacket.length = BUFSIZE - 31 := by
  rw [longPacket, List.length_append, List.length_replicate]
  rfl

theorem parse_longHeader (rest : Bytes) : parseIpPacket (longHeader ++ rest) = some (65505, .v4 0, .v4 0) := by
  have short : ¬ (longHeader ++ rest).length < 20 := by
    rw [List.length_append]
    have header : longHeader.length = 20 := rfl
    omega
  rw [parseIpPacket, if_neg short, getD_append (by decide)]
  dsimp only
  rw [if_pos (by decide), sub_append (by decide), sub_append (by decide), sub_append (by decide)]
  decide

def readsNothing (l : Program.Label) : Bool :=
  match l.event with
  | .start (.packet _) => false
  | _ => true

theorem run_of_program {s last : Program HS}
    (run : Run (fun s l next => Program.Step c s l next ∧ readsNothing l = true) s labels last) (pkt : Bytes)
    (n : Nat) (mtu : BitVec 32) :
    ∃ labels, Run (fun s l next => Step c s l next ∧ s.ReadsUpTo n mtu l) ⟨s, pkt⟩ labels ⟨last, pkt⟩ := by
  induction run with
  | nil => exact ⟨[], .nil⟩
  | @cons s l next labels last one _ ih =>
    obtain ⟨later, rest⟩ := ih
    obtain ⟨step, nothing⟩ := one
    refine ⟨⟨l.task, .other l.event, l.env⟩ :: later, .cons ⟨.other ?_ step, readsUpTo_other⟩ rest⟩
    intro plain same
    rw [readsNothing, same] at nothing
    cases nothing

/-- A handshake is about to be finished with peer 0, which has no session yet and nothing queued. -/
def Finishing (s : Program SymbolicHs) : Prop :=
  (∃ p addr selfId peerId hs rest, s.tasks 0 = .finish p addr selfId peerId hs 0 :: rest) ∧
    (s.wg.peers 0).handshake.isSome = true ∧ (s.wg.peers 0).findTransportToSend = none ∧
    (s.wg.peers 0).info.endpoint.isSome = true ∧ (s.wg.peers 0).queue = [] ∧
    s.wg.findPeerByIp (.v4 0) = some 0

def finishing (s : Program SymbolicHs) : Bool :=
  (match s.tasks 0 with
    | .finish _ _ _ _ _ 0 :: _ => true
    | _ => false) &&
  (s.wg.peers 0).handshake.isSome && (s.wg.peers 0).findTransportToSend.isNone &&
  (s.wg.peers 0).info.endpoint.isSome && (s.wg.peers 0).queue.isEmpty && (s.wg.findPeerByIp (.v4 0)).any (· = 0)

theorem Finishing.of_finishing {s : Program SymbolicHs} (seen : finishing s = true) : Finishing s := by
  simp only [finishing, Bool.and_eq_true, Option.isNone_iff_eq_none, List.isEmpty_iff, Option.any_eq_true,
    decide_eq_true_eq] at seen
  obtain ⟨⟨⟨⟨⟨head, pending⟩, session⟩, endpoint⟩, empty⟩, _, routed, rfl⟩ := seen
  refine ⟨?_, pending, session, endpoint, empty, routed⟩
  split at head
  · rename_i p addr selfId peerId hs rest tasks
    exact ⟨p, addr, selfId, peerId, hs, rest, tasks⟩
  · cases head

theorem finishing_reached : ∃ labels s, Run (fun s l next => Program.Step Crypto.symbolic s l next ∧
    readsNothing l = true) (Program.start ⟨zeros 32, 0, 0⟩ (zeros 32) 1280 0) labels s ∧ Finishing s ∧
    s.tasks 1 = [] := by
  have followed : ((Program.start ⟨zeros 32, 0, 0⟩ (zeros 32) 1280 0).followWith Crypto.symbolic
      (fun _ l => readsNothing l) 1 sampleResponded).any finishing = true := by decide +kernel
  obtain ⟨s, follows, seen⟩ := (Option.any_eq_true ..).mp followed
  obtain ⟨run, within⟩ := Program.run_of_followWith Crypto.symbolic Program.start_within follows
  exact ⟨_, s, run.mono fun _ _ _ step => ⟨step.1, step.2.2⟩, .of_finishing seen, within 1 le_rfl⟩

theorem Finishing.read {s : Program SymbolicHs} (finishing : Finishing s) (idle : s.tasks 1 = [])
    (parsed : parseIpPacket plain = some (len, src, .v4 0)) : ∃ got after : Program SymbolicHs,
    Program.Step Crypto.symbolic s ⟨1, .start (.packet plain), sampleEnv⟩ got ∧
    Program.Step Crypto.symbolic got ⟨1, .proceed, sampleEnv⟩ after ∧
    after.tasks 0 = s.tasks 0 ∧ (after.wg.peers 0).handshake = (s.wg.peers 0).handshake ∧
    (after.wg.peers 0).queue = [plain] := by
  obtain ⟨_, _, session, endpoint, empty, routed⟩ := finishing
  have sending : Function.update s.tasks 1 [.send plain 0] 1 = .send plain 0 :: [] := Function.update_self ..
  have ran : (Section.send plain 0).run Crypto.symbolic sampleEnv s.wg =
      .ok ((s.wg.sendOrEnqueue Crypto.symbolic sampleEnv 0 plain).2,
        if (s.wg.sendOrEnqueue Crypto.symbolic sampleEnv 0 plain).1.1 then [.doHandshake 0] else []) := rfl
  generalize (if (s.wg.sendOrEnqueue Crypto.symbolic sampleEnv 0 plain).1.1 then [Section.doHandshake 0] else []) =
    more at ran
  refine ⟨⟨s.wg, Function.update s.tasks 1 [.send plain 0]⟩,
    ⟨(s.wg.sendOrEnqueue Crypto.symbolic sampleEnv 0 plain).2, Function.update
      (Function.update s.tasks 1 [.send plain 0]) 1 (more ++ [])⟩, .start idle trivial ?_,
    .proceed sending trivial ran, ?_, ?_⟩
  · simp only [Op.begin, parsed, routed]
    rfl
  · dsimp only
    rw [Function.update_of_ne (by decide), Function.update_of_ne (by decide)]
  · dsimp only
    rcases WgState.sendOrEnqueue_queues Crypto.symbolic s.wg sampleEnv 0 plain with
      ⟨unknown, _⟩ | ⟨t, found, _⟩ | ⟨_, _, _, queued⟩
    · rw [unknown] at endpoint
      cases endpoint
    · rw [session] at found
      cases found
    · have peer : (s.wg.sendOrEnqueue Crypto.symbolic sampleEnv 0 plain).2.peers 0 =
          (s.wg.peers 0).enqueuePacket sampleEnv.now plain := by
        rw [queued, Function.update_self]
      rw [peer, PeerState.enqueuePacket, empty]
      exact ⟨rfl, rfl⟩

theorem long_packet_overruns (mtu : BitVec 32) : ∃ labels s, ⟨1, .read longPacket, sampleEnv⟩ ∈ labels ∧
    Run (fun s l next => Step Crypto.symbolic s l next ∧ s.ReadsUpTo (BUFSIZE - 31) mtu l)
      (start ⟨zeros 32, 0, 0⟩ (zeros 32) 1280 0) labels s ∧ ¬ s.WithinBuffers Crypto.symbolic := by
  obtain ⟨_, s, run, finishing, idle⟩ := finishing_reached
  have size : (List.replicate BUFSIZE (0 : UInt8)).length = BUFSIZE := List.length_replicate
  rw [start]
  generalize List.replicate BUFSIZE (0 : UInt8) = buffer at size ⊢
  obtain ⟨labels, before⟩ := run_of_program run buffer (BUFSIZE - 31) mtu
  -- The MTU changes, then the packet is read.
  have changed : Program.Step Crypto.symbolic s ⟨1, .start (.updateMtu mtu), sampleEnv⟩
      ⟨{ s.wg with mtu }, Function.update s.tasks 1 []⟩ := .start idle trivial rfl
  have length := longPacket_length
  have header (rest : Bytes) : parseIpPacket (longPacket ++ rest) = some (65505, .v4 0, .v4 0) := by
    rw [longPacket, List.append_assoc]
    exact parse_longHeader _
  generalize longPacket = packet at length header ⊢
  have fits : packet.length ≤ BUFSIZE := by
    rw [length]
    exact Nat.sub_le BUFSIZE 31
  obtain ⟨pkt, _, padded⟩ := padPacket_eq buffer packet mtu size fits
  have long := (flushable_padded fits padded size).2
  have parsed := header (List.replicate ((padLen (BitVec.ofNat 64 packet.length) (mtu.setWidth 64)).toNat -
    packet.length) 0)
  generalize packet ++ List.replicate ((padLen (BitVec.ofNat 64 packet.length) (mtu.setWidth 64)).toNat -
    packet.length) 0 = plain at padded long parsed
  have same : Function.update s.tasks 1 [] = s.tasks := by
    rw [← idle]
    exact Function.update_eq_self 1 s.tasks
  rw [same] at changed
  have notRead (plain : Bytes) : Program.Event.start (.updateMtu mtu) ≠ .start (.packet plain) := nofun
  have notReadAfter (plain : Bytes) : Program.Event.proceed ≠ .start (.packet plain) := nofun
  obtain ⟨got, after, reads, sends, waiting, pending, queued⟩ :=
    Finishing.read (s := ⟨{ s.wg with mtu }, s.tasks⟩) finishing idle parsed
  have reading : Step Crypto.symbolic ⟨⟨{ s.wg with mtu }, s.tasks⟩, buffer⟩ ⟨1, .read packet, sampleEnv⟩ ⟨got, pkt⟩ :=
    .read fits padded reads
  refine ⟨labels ++ [⟨1, .other (.start (.updateMtu mtu)), sampleEnv⟩, ⟨1, .read packet, sampleEnv⟩,
    ⟨1, .other .proceed, sampleEnv⟩], ⟨after, pkt⟩, ?_, before.append (.cons ⟨.other notRead changed, readsUpTo_other⟩
      (.cons ⟨reading, ?_⟩ (.cons ⟨.other notReadAfter sends, readsUpTo_other⟩ .nil))), fun within => ?_⟩
  · exact List.mem_append_right labels (List.mem_cons_of_mem _ List.mem_cons_self)
  · intro other same
    have isLong : packet = other := Event.read.inj same
    rw [← isLong, length]
    exact ⟨le_rfl, rfl⟩
  · obtain ⟨⟨p, addr, selfId, peerId, hs, rest, head⟩, hasHandshake, _⟩ := finishing
    obtain ⟨h, isPending⟩ := Option.isSome_iff_exists.mp hasHandshake
    refine within 0 (.finish p addr selfId peerId hs 0) ?_ trivial sampleEnv ?_
    · rw [waiting]
      exact head ▸ List.mem_cons_self
    have few : (after.wg.peers 0).queue.length ≤ QUEUE_SIZE := by
      rw [queued, List.length_singleton]
      decide
    rcases WgState.finishSession_outcome Crypto.symbolic (pending.trans isPending) few sampleEnv addr peerId hs with
      ⟨all, _⟩ | ⟨_, failed⟩
    · have flushable := all plain (by rw [queued]; exact List.mem_singleton_self plain)
      have size := long.mp flushable
      rw [Flushable, length] at size
      exact absurd size (by decide)
    · rw [Section.run, failed]
      rfl

theorem short_of_within (mtu : BitVec 32) (holds : ∀ {labels : List Label} {s : Tunnel SymbolicHs},
    Run (fun s l next => Step Crypto.symbolic s l next ∧ s.ReadsUpTo n mtu l)
      (start ⟨zeros 32, 0, 0⟩ (zeros 32) 1280 0) labels s → s.WithinBuffers Crypto.symbolic) :
    n + 32 ≤ BUFSIZE := by
  by_contra long
  obtain ⟨labels, s, _, run, overruns⟩ := long_packet_overruns mtu
  apply overruns
  apply holds (run.mono fun s l next step => ⟨step.1, fun packet same => ?_⟩)
  obtain ⟨size, under⟩ := step.2 packet same
  exact ⟨by omega, under⟩

end Long

/-- Reading, padding and sealing a packet never leaves a buffer. Where packets are sealed that had to
wait, the buffer is 32 bytes too short, so that it is never left exactly if packets are that much shorter,
under one MTU as under one that changes. -/
theorem packet_buffers_hold (n : Nat) (mtu : BitVec 32) :
    (∀ {HS : Type} (c : Crypto HS) {info : WgInfo} {secret : U8Array 32} {first : BitVec 32} {now : Instant}
      {labels : List Label} {s : Tunnel HS}, Run (Step c) (start info secret first now) labels s →
      ∀ (env : Env) (packet : Bytes), packet.length ≤ BUFSIZE →
        ∃ r, s.program.wg.tunPacketProcessing c env s.pkt packet = .ok r) ∧
    ((∀ {HS : Type} (c : Crypto HS) {info : WgInfo} {secret : U8Array 32} {first : BitVec 32} {now : Instant}
      {labels : List Label} {s : Tunnel HS},
      Run (fun s l next => Step c s l next ∧ s.ReadsUpTo n mtu l) (start info secret first now) labels s →
      s.WithinBuffers c) ↔ n + 32 ≤ BUFSIZE) ∧
    ((∀ {HS : Type} (c : Crypto HS) {info : WgInfo} {secret : U8Array 32} {first : BitVec 32} {now : Instant}
      {labels : List Label} {s : Tunnel HS},
      Run (fun s l next => Step c s l next ∧ l.ReadsUpTo n) (start info secret first now) labels s →
      s.WithinBuffers c) ↔ n + 32 ≤ BUFSIZE) := by
  refine ⟨?_, ⟨?_, ?_⟩, ?_, ?_⟩
  · intro HS c info secret first now labels s run env packet fits
    obtain ⟨next, _, ok⟩ :=
      tunPacketProcessing_padded c s.program.wg env (run_buffer (fun _ _ _ step => step) run) fits
    exact ⟨_, ok⟩
  · intro holds
    exact short_of_within mtu (holds Crypto.symbolic)
  · intro short HS c info secret first now labels s run
    exact (run_roomy short (run.mono fun s l next step => ⟨step.1, step.2.label⟩)).within
  · intro holds
    apply short_of_within mtu
    intro labels s run
    exact holds Crypto.symbolic (run.mono fun s l next step => ⟨step.1, step.2.label⟩)
  · intro short HS c info secret first now labels s run
    exact (run_roomy short run).within

/-- A packet of 65505 bytes waits for a peer, and the handshake that it waits for cannot be finished. -/
theorem long_packet_stops_daemon : ∃ labels s, ⟨1, .read longPacket, sampleEnv⟩ ∈ labels ∧
    Run (fun s l next => Step Crypto.symbolic s l next ∧ s.ReadsUpTo 65505 1420 l)
      (start ⟨zeros 32, 0, 0⟩ (zeros 32) 1280 0) labels s ∧ ¬ s.WithinBuffers Crypto.symbolic :=
  long_packet_overruns 1420

end Tunnel

end Titun
