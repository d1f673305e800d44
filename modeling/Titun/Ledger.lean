import Titun.KeyConfirmation
import Titun.Lib.Tickets

/-! What passes through a peer: packets from and to the TUN device, and messages from and to the other end. -/
namespace Titun

open PeerState

variable {HS : Type} (c : Crypto HS)

/-- A packet as it is sealed or opened on a session. -/
structure Message where
  key : SecretKey
  counter : BitVec 64
  plain : Bytes
  deriving DecidableEq

/-- The datagram that carries a message. -/
def Message.datagram (m : Message) (peerId : WgId) : Bytes :=
  [4, 0, 0, 0] ++ peerId.val ++ Endian.leBytes 8 m.counter.toNat ++
    (ChaCha20Poly1305.encrypt c m.key m.counter [] m.plain).val

/-- What passes through a peer. -/
inductive Transfer where
  /-- A handshake gave the two keys of a session. -/
  | established (sendKey recvKey : SecretKey)
  /-- A packet from the TUN device. -/
  | arrived (packet : Bytes)
  | sealed (m : Message)
  | opened (m : Message)
  /-- A packet to the TUN device. -/
  | written (packet : Bytes)
  deriving DecidableEq

namespace Transfer

def arrived? : Transfer → Option Bytes
  | arrived packet => some packet
  | _ => none

def sealed? : Transfer → Option Message
  | sealed m => some m
  | _ => none

def opened? : Transfer → Option Message
  | opened m => some m
  | _ => none

def written? : Transfer → Option Bytes
  | written packet => some packet
  | _ => none

/-- The packet that leaves; a message without one is a keep-alive. -/
def departed? : Transfer → Option Bytes
  | sealed m => if m.plain = [] then none else some m.plain
  | _ => none

end Transfer

/-- The messages in which packets leave, one after the other. -/
def Transport.seals (t : Transport) : List Bytes → List Message
  | [] => []
  | packet :: packets =>
    ⟨t.sendKey, t.sendCounter, packet⟩ :: seals { t with sendCounter := t.sendCounter + 1 } packets

namespace Section

/-- What passes through its peer in a section. -/
def transfers (env : Env) (wg : WgState HS) : Section HS → List Transfer
  | accept p addr r peer =>
    match wg.acceptInitiation c env p addr r peer with
    | .ok (next, _ :: _) =>
      ((next.peers peer).transports.val.take 1).map fun t => .established t.sendKey t.recvKey
    | _ => []
  | finish _ _ _ peerId hs peer =>
    match (wg.peers peer).handshake with
    | none => []
    | some h =>
      let t := Transport.newFromHs c env.now h.selfId peerId hs
      .established t.sendKey t.recvKey :: (t.seals (wg.peers peer).queue).map .sealed
  | decide p addr selfId peer =>
    match (wg.peers peer).findTransportById selfId with
    | none => []
    | some t =>
      ((t.decrypt c p).1.map fun r => .opened ⟨t.recvKey, Transport.counterOf p, r.2⟩).toList ++
        ((wg.decideTransport c env p addr selfId peer).1.write.map .written).toList
  | send packet peer =>
    .arrived packet ::
      match (wg.peers peer).findTransportToSend with
      | none => []
      | some t => (wg.sendOrEnqueue c env peer packet).1.2.map fun _ => .sealed ⟨t.sendKey, t.sendCounter, packet⟩
  | keepalive peer =>
    match (wg.peers peer).findTransportToSend with
    | none => []
    | some t => (wg.doKeepalive1 c env peer).1.2.map fun _ => .sealed ⟨t.sendKey, t.sendCounter, []⟩
  | _ => []

end Section

section Datagrams

variable {c}

theorem encrypt_datagram {t : Transport} {plain out : Bytes} (ok : (t.encrypt c plain).1.1 = some out) :
    out = (⟨t.sendKey, t.sendCounter, plain⟩ : Message).datagram c t.peerId := (Transport.encrypt_eq_some c ok).2.1

theorem flush_datagrams {t u : Transport} {packets : List Bytes}
    (ok : WgState.flushQueue c t addr packets = .ok (outputs, u)) :
    ∀ out ∈ outputs, ∃ m ∈ t.seals packets, out = .sendTo (m.datagram c t.peerId) addr := by
  induction packets generalizing t outputs with
  | nil =>
    obtain ⟨rfl, rfl⟩ := Prod.mk.inj (Except.ok.inj ok)
    intro out member
    cases member
  | cons packet packets ih =>
    simp only [WgState.flushQueue] at ok
    split_ifs at ok
    · cases ok
    obtain ⟨sent, encrypted, ok⟩ := bind_eq_ok.mp ok
    obtain ⟨⟨rest, v⟩, flushed, ok⟩ := bind_eq_ok.mp ok
    obtain ⟨rfl, rfl⟩ := Prod.mk.inj (Except.ok.inj ok)
    have first := unwrap_eq_ok.mp encrypted
    obtain ⟨_, _, counted⟩ := Transport.encrypt_eq_some c first
    rw [counted] at flushed
    intro out member
    rcases List.mem_cons.mp member with rfl | later
    · exact ⟨_, List.mem_cons_self, by rw [encrypt_datagram first]⟩
    · obtain ⟨m, among, rfl⟩ := ih flushed out later
      exact ⟨m, List.mem_cons_of_mem _ among, rfl⟩

/-- Whatever transport message a section sends is among the messages that it seals. -/
theorem Section.outputs_transfers {sec : Section HS} {wg next : WgState HS} {out : Output}
    (ok : sec.run c env wg = .ok (next, more))
    (member : out ∈ sec.outputs c env wg) (transport : out.IsTransport) :
    sec.peer?.isSome = true ∧ ∃ m, .sealed m ∈ sec.transfers c env wg ∧
      ∃ peerId addr, out = .sendTo (m.datagram c peerId) addr := by
  cases sec with
  | accept p addr r peer => exact absurd transport (acceptInitiation_not_transport member)
  | finish p addr selfId peerId hs peer =>
    obtain ⟨⟨_, outputs⟩, finished, ok⟩ := bind_eq_ok.mp ok
    obtain ⟨h, u, q, pending, leaves, _⟩ := WgState.finishSession_cases c finished
    have sent : out ∈ outputs := by simpa only [Section.outputs, finished, outputsOf] using member
    obtain ⟨m, among, same⟩ := flush_datagrams leaves.flushed out sent
    refine ⟨rfl, m, ?_, _, addr, same⟩
    simp only [transfers, pending]
    exact List.mem_cons_of_mem _ (List.mem_map_of_mem among)
  | send packet peer =>
    refine ⟨rfl, ?_⟩
    simp only [outputs, transfers] at member ⊢
    unfold WgState.sendOrEnqueue at member ⊢
    cases endpoint : (wg.peers peer).getEndpoint with
    | none => simp [endpoint] at member
    | some addr =>
      cases session : (wg.peers peer).findTransportToSend with
      | none => simp [endpoint, session] at member
      | some t =>
        cases result : (t.encrypt c packet).1.1 with
        | none => simp [endpoint, session, result] at member
        | some sent =>
          simp only [endpoint, session, result] at member ⊢
          obtain rfl := List.mem_singleton.mp member
          exact ⟨_, List.mem_cons_of_mem _ (List.mem_singleton_self _), t.peerId, addr, by rw [encrypt_datagram result]⟩
  | keepalive peer =>
    refine ⟨rfl, ?_⟩
    simp only [outputs, transfers] at member ⊢
    unfold WgState.doKeepalive1 at member ⊢
    cases endpoint : (wg.peers peer).getEndpoint with
    | none => simp [endpoint] at member
    | some addr =>
      cases session : (wg.peers peer).findTransportToSend with
      | none => simp [endpoint, session] at member
      | some t =>
        cases result : (t.encrypt c []).1.1 with
        | none => simp [endpoint, session, result] at member
        | some sent =>
          simp only [endpoint, session, result] at member ⊢
          obtain rfl := List.mem_singleton.mp member
          exact ⟨_, List.mem_singleton_self _, t.peerId, addr, by rw [encrypt_datagram result]⟩
  | _ => cases member

end Datagrams

/-- The session becomes too old at most. -/
structure Transport.Lapses (u t : Transport) : Prop where
  sendKey : u.sendKey = t.sendKey
  recvKey : u.recvKey = t.recvKey
  recvAr : u.recvAr = t.recvAr
  counts : u.notTooOld = true → t.notTooOld = true ∧ u.sendCounter = t.sendCounter

instance Transport.Lapses.isRefl : Std.Refl Transport.Lapses := ⟨fun _ => ⟨rfl, rfl, rfl, fun young => ⟨young, rfl⟩⟩⟩

instance Transport.Lapses.isTrans : IsTrans Transport Transport.Lapses where
  trans u t s first second := by
    refine ⟨first.sendKey.trans second.sendKey, first.recvKey.trans second.recvKey, first.recvAr.trans second.recvAr,
      ?_⟩
    intro young
    obtain ⟨middle, same⟩ := first.counts young
    obtain ⟨old, before⟩ := second.counts middle
    exact ⟨old, same.trans before⟩

/-- What passes on the sessions of a peer, and what becomes of them. -/
inductive Conducts : List Transport → List Transfer → List Transport → Prop where
  | lapse : List.SublistForall₂ Transport.Lapses later ts → Conducts ts [] later
  | establish {t : Transport} {ts : List Transport} : Conducts ts [.established t.sendKey t.recvKey] (t :: ts)
  | sends {t : Transport} {plain : Bytes} {front back : List Transport} : t.notTooOld = true →
      t.sendCounter < REJECT_AFTER_MESSAGES →
      Conducts (front ++ t :: back) [.sealed ⟨t.sendKey, t.sendCounter, plain⟩]
        (front ++ { t with sendCounter := t.sendCounter + 1 } :: back)
  | opens {t : Transport} {n : BitVec 64} {plain : Bytes} {front back : List Transport} : t.recvAr.check n = true →
      Conducts (front ++ t :: back) [.opened ⟨t.recvKey, n, plain⟩] (front ++ t.accept n :: back)
  | arrive {packet : Bytes} : Conducts ts [.arrived packet] ts
  | write {packet : Bytes} : Conducts ts [.written packet] ts
  | append : Conducts ts xs middle → Conducts middle ys later → Conducts ts (xs ++ ys) later

namespace Conducts

variable {c} {ts later : List Transport}

theorem nothing (ts : List Transport) : Conducts ts [] ts := .lapse (refl ts)

theorem forget (less : later.Sublist ts) : Conducts ts [] later := .lapse less.sublistForall₂

theorem lapseOne {t u : Transport} {front back : List Transport} (lapses : u.Lapses t) :
    Conducts (front ++ t :: back) [] (front ++ u :: back) := by
  apply lapse
  rw [List.sublistForall₂_iff]
  refine ⟨front ++ t :: back, ?_, .refl _⟩
  exact List.rel_append (List.forall₂_refl _) (.cons lapses (List.forall₂_refl _))

theorem lapses (conducts : Conducts ts [] later) : List.SublistForall₂ Transport.Lapses later ts := by
  generalize nil : [] = transfers at conducts
  induction conducts with
  | lapse less => exact less
  | append _ _ first second =>
    obtain ⟨none_before, none_after⟩ := List.append_eq_nil_iff.mp nil.symm
    exact Trans.trans (second none_after.symm) (first none_before.symm)
  | establish | sends | opens | arrive | write => cases nil

theorem encrypts {v : ArrayVec Transport 3} {t : Transport} (found : v.val.find? Transport.getShouldSend = some t)
    (plain : Bytes) : Conducts v.val
      (if (t.encrypt c plain).1.1 = none then [] else [.sealed ⟨t.sendKey, t.sendCounter, plain⟩])
      (v.replaceFirst Transport.getShouldSend (t.encrypt c plain).2).val := by
  obtain ⟨front, back, split, next, _⟩ := ArrayVec.replaceFirst_place found (t.encrypt c plain).2
  have usable : t.getShouldSend = true := List.find?_some found
  have young : t.notTooOld = true := (Bool.and_eq_true_iff.mp usable).2
  rw [next, split]
  cases result : (t.encrypt c plain).1.1 with
  | none =>
    obtain ⟨_, exhausted⟩ := Transport.encrypt_eq_none c result
    rw [if_pos rfl, exhausted]
    exact lapseOne ⟨rfl, rfl, rfl, fun young => by cases young⟩
  | some out =>
    obtain ⟨inside, _, counted⟩ := Transport.encrypt_eq_some c result
    rw [if_neg (Option.some_ne_none out), counted]
    exact sends young inside

theorem flush {t u : Transport} {packets : List Bytes} (young : t.notTooOld = true)
    (ok : WgState.flushQueue c t addr packets = .ok (outputs, u)) :
    Conducts (t :: ts) ((t.seals packets).map .sealed) (u :: ts) := by
  induction packets generalizing t outputs with
  | nil =>
    obtain ⟨rfl, rfl⟩ := Prod.mk.inj (Except.ok.inj ok)
    exact nothing _
  | cons packet packets ih =>
    simp only [WgState.flushQueue] at ok
    split_ifs at ok
    · cases ok
    obtain ⟨out, encrypted, ok⟩ := bind_eq_ok.mp ok
    obtain ⟨⟨rest, v⟩, flushed, ok⟩ := bind_eq_ok.mp ok
    obtain ⟨rfl, rfl⟩ := Prod.mk.inj (Except.ok.inj ok)
    obtain ⟨inside, _, counted⟩ := Transport.encrypt_eq_some c (unwrap_eq_ok.mp encrypted)
    rw [counted] at flushed
    have later := ih (t := { t with sendCounter := t.sendCounter + 1 }) young flushed
    exact append (Conducts.sends young inside : Conducts ([] ++ t :: ts) _ _) later

theorem push (v : ArrayVec Transport 3) (t : Transport) :
    Conducts v.val [.established t.sendKey t.recvKey] (v.pushFront t).2.val := by
  rw [ArrayVec.pushFront_take]
  exact append establish (forget ((List.take_sublist 2 v.val).cons_cons t))

end Conducts

/-- What passes through a peer, and what becomes of its sessions and its queue. -/
structure PeerState.Deals (p : PeerState HS) (transfers : List Transfer) (q : PeerState HS) : Prop where
  sessions : Conducts p.transports.val transfers q.transports.val
  queue : List.Subperm (q.queue ++ transfers.filterMap Transfer.departed?)
    (p.queue ++ transfers.filterMap Transfer.arrived?)

namespace PeerState.Deals

variable {p q : PeerState HS}

theorem still (transports : q.transports = p.transports) (queue : q.queue = p.queue) : p.Deals [] q := by
  constructor
  · rw [transports]
    exact .nothing _
  · rw [queue]
    exact .refl _

theorem refl (p : PeerState HS) : p.Deals [] p := still rfl rfl

theorem of_undisturbed (undisturbed : p.Undisturbed q) (holds : p.Holds q) : p.Deals [] q :=
  still undisturbed.transports holds.queue

theorem emptied (transports : q.transports = .empty) (queue : q.queue = []) : p.Deals [] q := by
  constructor
  · rw [transports]
    exact .forget (List.nil_sublist _)
  · rw [queue]
    exact List.nil_subperm

end PeerState.Deals

namespace WgState

variable {c} {wg next : WgState HS}

/-- Something passes through one peer, and nothing through the others. -/
structure Deals (peer : PeerRef) (transfers : List Transfer) (wg next : WgState HS) : Prop where
  own : (wg.peers peer).Deals transfers (next.peers peer)
  others : ∀ ref, ref ≠ peer → (wg.peers ref).Deals [] (next.peers ref)

theorem Deals.of_update {q : PeerState HS} (peers : next.peers = Function.update wg.peers peer q)
    (deals : (wg.peers peer).Deals transfers q) : wg.Deals peer transfers next := by
  constructor
  · rw [peers, Function.update_self]
    exact deals
  · intro ref apart
    rw [peers, Function.update_of_ne apart]
    exact .refl _

theorem Deals.setPeerState {q : PeerState HS} (deals : (wg.peers peer).Deals transfers q) :
    wg.Deals peer transfers (wg.setPeerState peer q) := .of_update rfl deals

theorem Deals.still (undisturbed : wg.Undisturbed next) (holds : wg.Holds next) (peer : PeerRef) :
    wg.Deals peer [] next := ⟨.of_undisturbed (undisturbed peer) (holds peer),
      fun ref _ => .of_undisturbed (undisturbed ref) (holds ref)⟩

theorem Deals.cleared (clears : Clears peer wg next) (empties : Empties peer wg next) : wg.Deals peer [] next :=
  ⟨.emptied clears.1.transports empties.1,
    fun ref apart => .of_undisturbed (clears.2 ref apart) (empties.2 ref apart)⟩

theorem acceptInitiation_deals (ok : wg.acceptInitiation c env p addr r peer = .ok (next, outputs)) :
    wg.Deals peer ((Section.accept p addr r peer).transfers c env wg) next := by
  simp only [Section.transfers, ok]
  rcases acceptInitiation_cases c ok with ⟨_, rfl, _, rfl⟩ | ⟨response, hs, mac1, q, _, _, _, rfl, leaves, made⟩
  · exact .setPeerState (.still rfl rfl)
  · have peers : next.peers = Function.update wg.peers peer q := by
      rw [made]
      exact dropGuards_peers ..
    have front : (next.peers peer).transports.val.take 1 = [Transport.newFromHs c env.now env.id r.peerId hs] := by
      rw [peers, Function.update_self, leaves.transports, ArrayVec.pushFront_take]
      rfl
    refine .of_update peers ⟨?_, ?_⟩
    · dsimp only
      rw [front, leaves.transports]
      exact .push _ _
    · dsimp only
      rw [front, leaves.queue]
      exact .refl _

theorem departed_seals (t : Transport) (packets : List Bytes) :
    ((t.seals packets).map Transfer.sealed).filterMap Transfer.departed? = packets.filter (· ≠ []) := by
  induction packets generalizing t with
  | nil => rfl
  | cons packet packets ih =>
    rw [Transport.seals, List.map_cons, List.filterMap_cons, ih]
    by_cases empty : packet = []
    · simp [Transfer.departed?, empty]
    · simp [Transfer.departed?, empty]

theorem arrived_seals (t : Transport) (packets : List Bytes) :
    ((t.seals packets).map Transfer.sealed).filterMap Transfer.arrived? = [] := by
  simp [Transfer.arrived?]

theorem finishSession_deals (ok : wg.finishSession c env addr peerId hs peer = .ok (next, outputs)) :
    wg.Deals peer ((Section.finish p addr selfId peerId hs peer).transfers c env wg) next := by
  obtain ⟨h, u, q, pending, leaves, rfl⟩ := finishSession_cases c ok
  refine .of_update (dropGuards_peers ..) ⟨?_, ?_⟩
  · simp only [Section.transfers, pending]
    rw [leaves.transports, ArrayVec.pushFront_take]
    have made : Conducts (wg.peers peer).transports.val _ _ :=
      .append .establish (Conducts.flush rfl leaves.flushed)
    rw [← List.append_nil (_ :: _)]
    exact .append made (.forget ((List.take_sublist 2 _).cons_cons u))
  · simp only [Section.transfers, pending]
    rw [leaves.queue, List.nil_append, List.filterMap_cons, List.filterMap_cons]
    simp only [Transfer.departed?, Transfer.arrived?]
    rw [departed_seals, arrived_seals, List.append_nil]
    exact List.filter_sublist.subperm

theorem decideTransport_deals (wg : WgState HS) (env : Env) (p : Bytes) (addr : SocketAddrV6) (selfId : WgId)
    (peer : PeerRef) : wg.Deals peer ((Section.decide p addr selfId peer).transfers c env wg)
      (wg.decideTransport c env p addr selfId peer).2 := by
  rcases decideTransport_cases c wg env p addr selfId peer with
    ⟨t, h, plain, session, opens, _, decided⟩ | ⟨refused, decided⟩
  · refine .of_update (congrArg WgState.peers (congrArg Prod.snd decided)) ⟨?_, ?_⟩
    · obtain ⟨front, back, split, next, _⟩ := ArrayVec.replaceFirst_place session (t.accept (Transport.counterOf p))
      obtain ⟨_, fresh, _⟩ := Transport.decrypt_eq_some c opens
      have replaced : (WgState.received (wg.peers peer) env p.length selfId (t.accept (Transport.counterOf p))
        plain).transports =
          (wg.peers peer).transports.replaceFirst (fun t => t.selfId = selfId) (t.accept (Transport.counterOf p)) := rfl
      simp only [Section.transfers, session, opens, decided, replaced, next]
      rw [split]
      refine .append (.opens fresh) ?_
      cases wg.packetToWrite peer plain with
      | none => exact .nothing _
      | some packet => exact .write
    · simp only [Section.transfers, session, opens, decided]
      cases wg.packetToWrite peer plain <;> exact .refl _
  · have counted : (wg.peers peer).Deals [] ((wg.peers peer).countRecv p.length) := .still rfl rfl
    have nothing : (Section.decide p addr selfId peer).transfers c env wg = [] := by
      simp only [Section.transfers]
      cases session : (wg.peers peer).findTransportById selfId with
      | none => rfl
      | some t => simp [refused t session, decided]
    rw [nothing, decided]
    exact .setPeerState counted

theorem departed_sealed (key : SecretKey) (counter : BitVec 64) (plain : Bytes) :
    [Transfer.sealed ⟨key, counter, plain⟩].filterMap Transfer.departed? = if plain = [] then [] else [plain] := by
  by_cases empty : plain = [] <;> simp [Transfer.departed?, empty]

theorem sendOrEnqueue_deals (wg : WgState HS) (env : Env) (packet : Bytes) (peer : PeerRef) :
    wg.Deals peer ((Section.send packet peer).transfers c env wg) (wg.sendOrEnqueue c env peer packet).2 := by
  have stays (q : PeerState HS) (sessions : Conducts (wg.peers peer).transports.val [] q.transports.val)
      (queue : q.queue.Sublist ((wg.peers peer).queue ++ [packet])) : (wg.peers peer).Deals [.arrived packet] q := by
    constructor
    · exact .append .arrive sessions
    · rw [← List.append_nil q.queue] at queue
      exact queue.subperm
  simp only [Section.transfers]
  unfold sendOrEnqueue
  cases endpoint : (wg.peers peer).getEndpoint with
  | none =>
    have dropped : wg.Deals peer [.arrived packet] wg := by
      constructor
      · exact stays _ (.nothing _) (List.sublist_append_left _ _)
      · intro ref _
        exact .refl _
    simp only [endpoint]
    cases (wg.peers peer).findTransportToSend <;> exact dropped
  | some addr =>
    cases session : (wg.peers peer).findTransportToSend with
    | none =>
      simp only [endpoint, session]
      refine .setPeerState (stays _ (.nothing _) ?_)
      exact (List.drop_sublist _ _).append (.refl _)
    | some t =>
      have sealed := Conducts.encrypts (c := c) session packet
      simp only [endpoint, session]
      cases result : (t.encrypt c packet).1.1 with
      | none =>
        rw [if_pos result] at sealed
        exact .setPeerState (stays _ sealed (List.sublist_append_left _ _))
      | some out =>
        rw [if_neg (by simp [result])] at sealed
        refine .setPeerState ⟨.append .arrive sealed, ?_⟩
        have departs : ([.arrived packet, .sealed ⟨t.sendKey, t.sendCounter, packet⟩] : List Transfer).filterMap
            Transfer.departed? = if packet = [] then [] else [packet] := departed_sealed ..
        have fewer : (if packet = [] then [] else [packet]).Sublist [packet] := by
          split_ifs
          · exact List.nil_sublist _
          · exact .refl _
        rw [← departs] at fewer
        exact (fewer.append_left (wg.peers peer).queue).subperm

theorem doKeepalive1_deals (wg : WgState HS) (env : Env) (peer : PeerRef) :
    wg.Deals peer ((Section.keepalive peer).transfers c env wg) (wg.doKeepalive1 c env peer).2 := by
  have untouched : wg.Deals peer [] wg := by
    constructor
    · exact .refl _
    · intro ref _
      exact .refl _
  simp only [Section.transfers]
  unfold doKeepalive1
  cases endpoint : (wg.peers peer).getEndpoint with
  | none =>
    simp only [endpoint]
    cases (wg.peers peer).findTransportToSend <;> exact untouched
  | some addr =>
    cases session : (wg.peers peer).findTransportToSend with
    | none =>
      simp only [endpoint, session]
      exact untouched
    | some t =>
      have sealed := Conducts.encrypts (c := c) session []
      simp only [endpoint, session]
      cases result : (t.encrypt c []).1.1 with
      | none =>
        rw [if_pos result] at sealed
        exact .setPeerState ⟨sealed, .refl _⟩
      | some out =>
        rw [if_neg (by simp [result])] at sealed
        exact .setPeerState ⟨sealed, .refl _⟩

end WgState

namespace Section

open WgState

variable {c} {wg next : WgState HS} {sec : Section HS}

/-- What becomes of the sessions and the queues of all peers in a section. -/
structure Settles (env : Env) (wg next : WgState HS) (sec : Section HS) : Prop where
  own : ∀ ref, sec.peer? = some ref → (wg.peers ref).Deals (sec.transfers c env wg) (next.peers ref)
  others : ∀ ref, sec.peer? ≠ some ref → (wg.peers ref).Deals [] (next.peers ref)

theorem Settles.of_deals (about : sec.peer? = some peer) (deals : wg.Deals peer (sec.transfers c env wg) next) :
    sec.Settles (c := c) env wg next := by
  constructor
  · intro ref this
    obtain rfl := Option.some.inj (about.symm.trans this)
    exact deals.own
  · intro ref other
    apply deals.others
    rintro rfl
    exact other about

theorem Settles.of_nobody (nobody : sec.peer? = none) (deals : ∀ ref, (wg.peers ref).Deals [] (next.peers ref)) :
    sec.Settles (c := c) env wg next := by
  constructor
  · intro ref this
    cases nobody.symm.trans this
  · intro ref _
    exact deals ref

theorem run_settles (ok : sec.run c env wg = .ok (next, more)) : sec.Settles (c := c) env wg next := by
  cases sec with
  | accept p addr r peer =>
    obtain ⟨⟨_, _⟩, accepted, ok⟩ := bind_eq_ok.mp ok
    obtain ⟨rfl, rfl⟩ := Prod.mk.inj (Except.ok.inj ok)
    exact .of_deals rfl (acceptInitiation_deals accepted)
  | verify p addr selfId peer =>
    obtain ⟨⟨verified, _⟩, verifies, ok⟩ := bind_eq_ok.mp ok
    have still : wg.Deals peer [] _ := .still (verifyResponse_undisturbed c verifies)
      (verifyResponse_holds c verifies) peer
    cases verified <;> obtain ⟨rfl, rfl⟩ := Prod.mk.inj (Except.ok.inj ok) <;> exact .of_deals rfl still
  | finish p addr selfId peerId hs peer =>
    obtain ⟨⟨_, _⟩, finished, ok⟩ := bind_eq_ok.mp ok
    obtain ⟨rfl, rfl⟩ := Prod.mk.inj (Except.ok.inj ok)
    exact .of_deals rfl (finishSession_deals finished)
  | cookie p peer =>
    obtain ⟨_, accepted, ok⟩ := bind_eq_ok.mp ok
    obtain ⟨rfl, rfl⟩ := Prod.mk.inj (Except.ok.inj ok)
    exact .of_deals rfl (.still (acceptCookieReply_undisturbed c accepted) (acceptCookieReply_holds c accepted) peer)
  | decide p addr selfId peer =>
    obtain ⟨rfl, rfl⟩ := Prod.mk.inj (Except.ok.inj ok)
    exact .of_deals rfl (decideTransport_deals wg env p addr selfId peer)
  | send packet peer =>
    obtain ⟨rfl, rfl⟩ := Prod.mk.inj (Except.ok.inj ok)
    exact .of_deals rfl (sendOrEnqueue_deals wg env packet peer)
  | keepalive peer =>
    obtain ⟨rfl, rfl⟩ := Prod.mk.inj (Except.ok.inj ok)
    exact .of_deals rfl (doKeepalive1_deals wg env peer)
  | setEndpoint addr peer =>
    obtain ⟨q, set, ok⟩ := bind_eq_ok.mp ok
    obtain ⟨rfl, rfl⟩ := Prod.mk.inj (Except.ok.inj ok)
    obtain ⟨_, rfl⟩ := setEndpoint_roamed set
    exact .of_deals rfl (.setPeerState (.still rfl rfl))
  | insertId selfId peer =>
    obtain ⟨rfl, rfl⟩ := Prod.mk.inj (Except.ok.inj ok)
    have undisturbed : wg.Undisturbed (wg.insertId selfId peer) := .of_peers rfl
    exact .of_deals rfl (.still undisturbed (.of_peers rfl) peer)
  | doHandshake peer =>
    obtain ⟨rfl, rfl⟩ := Prod.mk.inj (Except.ok.inj ok)
    exact .of_deals rfl (.still (doHandshake_undisturbed wg env peer) (doHandshake_holds wg env peer) peer)
  | rearm peer | dropScope peer =>
    obtain ⟨rfl, rfl⟩ := Prod.mk.inj (Except.ok.inj ok)
    exact .of_deals rfl (.setPeerState (.still rfl rfl))
  | dropHandshake peer =>
    obtain ⟨rfl, rfl⟩ := Prod.mk.inj (Except.ok.inj ok)
    exact .of_deals rfl (.of_update (WgState.dropGuards_peers ..) (.still rfl rfl))
  | clear peer =>
    obtain ⟨rfl, rfl⟩ := Prod.mk.inj (Except.ok.inj ok)
    exact .of_deals rfl (.cleared (clearPeer_clears wg env peer) (clearPeer_empties wg env peer))
  | addPeer publicKey =>
    obtain ⟨rfl, rfl⟩ := Prod.mk.inj (Except.ok.inj ok)
    refine .of_nobody rfl ?_
    unfold WgState.addPeer
    intro ref
    split_ifs
    · exact .refl _
    · dsimp only
      by_cases here : ref = wg.nextPeer
      · subst here
        rw [Function.update_self]
        exact .emptied rfl rfl
      · rw [Function.update_of_ne here]
        exact .refl _
  | configure command peer =>
    obtain ⟨_, configured, ok⟩ := bind_eq_ok.mp ok
    obtain ⟨rfl, rfl⟩ := Prod.mk.inj (Except.ok.inj ok)
    apply Settles.of_deals rfl
    rcases configure_queues configured with ⟨same, holds⟩ | ⟨changed, empties⟩
    · rcases configure_sessions configured with ⟨_, still⟩ | ⟨changed, _⟩
      · exact .still still holds peer
      · exact absurd same changed
    · rcases configure_sessions configured with ⟨same, _⟩ | ⟨_, clears⟩
      · exact absurd same changed
      · exact .cleared clears empties
  | unlist publicKey =>
    simp only [run] at ok
    split at ok <;> obtain ⟨rfl, rfl⟩ := Prod.mk.inj (Except.ok.inj ok) <;> exact .of_nobody rfl fun _ => .refl _
  | detach peer =>
    obtain ⟨_, detached, ok⟩ := bind_eq_ok.mp ok
    obtain ⟨rfl, rfl⟩ := Prod.mk.inj (Except.ok.inj ok)
    exact .of_deals rfl (.cleared (detach_clears detached) (detach_empties detached))
  | storeKey key =>
    obtain ⟨rfl, rfl⟩ := Prod.mk.inj (Except.ok.inj ok)
    exact .of_nobody rfl fun _ => .refl _

end Section

theorem Conducts.task (v : ArrayVec Transport 3) (i : Nat) (task : SessionTask) :
    Conducts v.val [] (v.modify i task.run).val := by
  have lapses (t : Transport) : (task.run t).Lapses t := by
    cases task with
    | expireHandshake => exact ⟨rfl, rfl, rfl, fun young => ⟨young, rfl⟩⟩
    | expire => exact ⟨rfl, rfl, rfl, fun young => by cases young⟩
  have pairs (l : List Transport) (i : Nat) : List.Forall₂ Transport.Lapses (l.modify i task.run) l := by
    induction l generalizing i with
    | nil =>
      rw [List.modify_nil]
      exact .nil
    | cons t rest ih =>
      cases i with
      | zero =>
        rw [List.modify_zero_cons]
        exact .cons (lapses t) (List.forall₂_refl _)
      | succ i =>
        rw [List.modify_succ_cons]
        exact .cons (refl t) (ih i)
  apply lapse
  rw [List.sublistForall₂_iff]
  exact ⟨v.val, pairs v.val i, .refl _⟩

theorem Op.begin_deals {c : Crypto HS} {op : Op} {wg next : WgState HS}
    (ok : op.begin c env wg = .ok (next, task)) (ref : PeerRef) : (wg.peers ref).Deals [] (next.peers ref) := by
  have does := begin_does c ok
  have kept {middle : WgState HS} (ok : (Except.ok (middle, []) : Exec _) = .ok (next, task))
      (same : middle.peers = wg.peers) : (wg.peers ref).Deals [] (next.peers ref) := by
    obtain ⟨rfl, rfl⟩ := Prod.mk.inj (Except.ok.inj ok)
    rw [same]
    exact .refl _
  have set {peer : PeerRef} {p : PeerState HS} (deals : (wg.peers peer).Deals [] p) :
      (wg.peers ref).Deals [] ((wg.setPeerState peer p).peers ref) := by
    have settled : wg.Deals peer [] (wg.setPeerState peer p) := .setPeerState deals
    by_cases here : ref = peer
    · subst here
      exact settled.own
    · exact settled.others ref here
  cases op with
  | config op =>
    cases op <;> obtain ⟨rfl, _⟩ := does <;> exact .refl _
  | setKey order key | packet padded =>
    obtain ⟨rfl, _⟩ := does
    exact .refl _
  | datagram bytes addr =>
    obtain ⟨⟨_, rfl⟩, _⟩ := does
    exact .refl _
  | timer peer kind =>
    obtain ⟨rfl, _⟩ := Prod.mk.inj (Except.ok.inj ok)
    apply set
    cases kind <;> exact .still rfl rfl
  | resend loop =>
    obtain ⟨⟨_, _⟩, resent, ok⟩ := bind_eq_ok.mp ok
    obtain ⟨rfl, _⟩ := Prod.mk.inj (Except.ok.inj ok)
    exact .of_undisturbed (WgState.resendIteration_undisturbed c resent ref)
      (WgState.resendIteration_holds c resent ref)
  | session peer i task =>
    obtain ⟨rfl, _⟩ := Prod.mk.inj (Except.ok.inj ok)
    exact set ⟨.task _ i task, .refl _⟩
  | setPort newPort prepared =>
    simp only [Op.begin, WgState.setPort] at ok
    by_cases same : newPort = wg.info.port
    · rw [if_pos same] at ok
      exact kept ok rfl
    · rw [if_neg same] at ok
      cases prepared with
      | error e => exact kept ok rfl
      | ok bound => cases channel : wg.socketChannel <;> rw [channel] at ok <;> exact kept ok rfl
  | setFwmark newFwmark marked =>
    simp only [Op.begin, WgState.setFwmark] at ok
    split_ifs at ok
    · exact kept ok rfl
    · cases marked <;> exact kept ok rfl
  | takeSocket =>
    simp only [Op.begin] at ok
    split at ok <;> exact kept ok rfl
  | removeDeferred id | cancelLoop loop | startRx | updateCookieSecret secret | updateMtu mtu =>
    exact kept ok rfl

end Titun
