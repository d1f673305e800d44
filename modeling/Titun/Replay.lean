import Titun.Lib.Exclusive
import Titun.DaemonEvolution

/-! Replays: what a state remembers of an accepted datagram, that it does not forget it, and
that it therefore refuses the datagram from then on. -/
namespace Titun

open PeerState (Evolves)

/-- What keeps a datagram from being accepted again: the timestamp of an initiation of a key,
the id that a response answered, or the session and the counter of a transport message. -/
inductive Memory where
  | initiation (stamp : TAI64N) (pk : X25519Pubkey)
  | response (id : WgId)
  | transport (id : WgId) (counter : BitVec 64)

/-- The ids that must not be drawn again. -/
def Memory.ids : Memory → List WgId
  | initiation _ _ => []
  | response id => [id]
  | transport id _ => [id]

namespace WgState

variable {HS : Type} (c : Crypto HS)

/-- A datagram is accepted for a peer by the handler that it is dispatched to. -/
inductive Accepts (wg : WgState HS) (env : Env) (p : Bytes) (addr : SocketAddrV6) (peer0 : PeerRef) :
    Memory → Prop where
  | initiation (type : p.getD 0 0 = 1) (accepts : AcceptsInit c wg env p addr r rs peer0) :
      Accepts wg env p addr peer0 (.initiation r.timestamp rs)
  | response (type : p.getD 0 0 = 2) (accepts : AcceptsResp c wg env p addr selfId peer0) :
      Accepts wg env p addr peer0 (.response selfId)
  | transport (type : p.getD 0 0 = 4) (accepts : AcceptsTransport c wg p selfId peer0) :
      Accepts wg env p addr peer0 (.transport selfId (Transport.counterOf p))

/-- No handshake waits for an answer to an id. -/
def Spent (wg : WgState HS) (id : WgId) : Prop := ∀ ref, id ∉ (wg.peers ref).handshakeIds

/-- Every session with an id refuses a counter. -/
def Burnt (wg : WgState HS) (id : WgId) (counter : BitVec 64) : Prop :=
  ∀ ref, ∀ t ∈ (wg.peers ref).transports.val, t.selfId = id → t.recvAr.check counter = false

def Remembers (wg : WgState HS) (peer0 : PeerRef) : Memory → Prop
  | .initiation stamp pk => peer0 < wg.nextPeer ∧ (wg.peers peer0).info.publicKey = pk ∧
      stamp.newer (wg.peers peer0).lastHandshake = false
  | .response id => wg.Spent id
  | .transport id counter => wg.Spent id ∧ wg.Burnt id counter

/-- The ids that the peers own are among those drawn, and each has one owner. -/
def Distinct (wg : WgState HS) (drawn : List WgId) : Prop :=
  Exclusive (fun ref => (wg.peers ref).ownedIds) drawn

namespace Advances

variable {wg next : WgState HS} {id : WgId} {counter : BitVec 64} (advances : Advances drawn wg next)

include advances

theorem distinct (before : wg.Distinct used) (nodup : drawn.Nodup) (fresh : ∀ id ∈ drawn, id ∉ used) :
    next.Distinct (used ++ drawn) := by
  obtain ⟨peer0, peers⟩ := advances.peers
  refine before.step nodup fresh peer0 fun ref => ?_
  rcases peers ref with evolves | ⟨_, blank⟩
  · exact evolves.ids
  · rw [blank]
    exact List.nil_subperm

theorem spent (before : wg.Spent id) (fresh : id ∉ drawn) : next.Spent id := by
  obtain ⟨peer0, peers⟩ := advances.peers
  intro ref pending
  rcases peers ref with evolves | ⟨_, blank⟩
  · rcases evolves.pending id pending with new | old
    · split_ifs at new
      · exact fresh new
      · cases new
    · exact before ref old
  · have owned : id ∈ (next.peers ref).ownedIds := List.mem_append_left _ pending
    rw [blank] at owned
    cases owned

theorem burnt (before : wg.Burnt id counter) (spent : wg.Spent id) (fresh : id ∉ drawn) :
    next.Burnt id counter := by
  obtain ⟨peer0, peers⟩ := advances.peers
  intro ref u session mine
  rcases peers ref with evolves | ⟨_, blank⟩
  · rcases evolves.session u session with ⟨t, old, continues⟩ | new | pending
    · exact continues.refused counter (before ref t old (continues.selfId.symm.trans mine))
    · split_ifs at new
      · exact absurd (mine ▸ new) fresh
      · cases new
    · exact absurd (mine ▸ pending) (spent ref)
  · have owned : u.selfId ∈ (next.peers ref).ownedIds :=
      List.mem_append_right _ (List.mem_map.mpr ⟨u, session, rfl⟩)
    rw [blank] at owned
    cases owned

theorem remembers (before : wg.Remembers peer0 memory) (fresh : ∀ id ∈ memory.ids, id ∉ drawn) :
    next.Remembers peer0 memory := by
  cases memory with
  | initiation stamp pk =>
    obtain ⟨present, publicKey, stale⟩ := before
    obtain ⟨_, peers⟩ := advances.peers
    rcases peers peer0 with evolves | ⟨isNew, _⟩
    · exact ⟨present.trans_le advances.nextPeer, evolves.publicKey.trans publicKey,
        evolves.stamp stamp stale⟩
    · exact absurd present (Nat.not_lt.mpr isNew)
  | response id => exact advances.spent before (fresh id List.mem_cons_self)
  | transport id counter =>
    exact ⟨advances.spent before.1 (fresh id List.mem_cons_self),
      advances.burnt before.2 before.1 (fresh id List.mem_cons_self)⟩

end Advances

namespace Distinct

variable {wg : WgState HS} {t : Transport} (distinct : wg.Distinct used)
  (session : t ∈ (wg.peers ref).transports.val)

include distinct session

theorem spent : wg.Spent t.selfId := by
  intro other pending
  obtain rfl := distinct.disjoint other ref t.selfId (List.mem_append_left _ pending)
    (PeerState.session_owned session)
  exact (List.nodup_append.mp (distinct.nodup other)).2.2 _ pending _
    (List.mem_map.mpr ⟨t, session, rfl⟩) rfl

theorem burnt (refused : t.recvAr.check counter = false) : wg.Burnt t.selfId counter := by
  intro other u session' same
  obtain rfl := distinct.disjoint other ref t.selfId (same ▸ PeerState.session_owned session')
    (PeerState.session_owned session)
  have nodup := (List.nodup_append.mp (distinct.nodup other)).2.1
  rw [List.inj_on_of_nodup_map nodup session' session same]
  exact refused

end Distinct

theorem checkMessage_length {wg next : WgState HS} (long : 32 ≤ len)
    (pass : wg.checkMessage c env p addr len = .ok (.pass, next)) : p.length = len := by
  obtain ⟨_, _, check, size, _⟩ := checkMessage_spec c wg env p addr long
  obtain ⟨rfl, _⟩ := Prod.mk.inj (Except.ok.inj (pass.symm.trans check))
  exact size (by simp)

theorem Accepts.drawn {wg : WgState HS} (distinct : wg.Distinct used)
    (accepts : wg.Accepts c env p addr peer0 memory) : ∀ id ∈ memory.ids, id ∈ used := by
  cases accepts with
  | initiation => exact fun _ member => absurd member List.not_mem_nil
  | @response selfId _ accepts =>
    obtain ⟨handshake, _, pending, mine, _⟩ := accepts.verified
    intro id member
    rw [List.mem_singleton.mp member]
    refine distinct.drawn peer0 selfId (List.mem_append_left _ ?_)
    simp [PeerState.handshakeIds, pending, mine]
  | @transport selfId _ accepts =>
    obtain ⟨t, _, session, _⟩ := accepts.decrypted
    intro id member
    rw [List.mem_singleton.mp member, ← PeerState.findTransportById_selfId session]
    exact distinct.drawn peer0 _ (PeerState.session_owned (List.mem_of_find?_eq_some session))

theorem Accepts.remembers {wg next : WgState HS} {o : Ownership} (refines : Refines wg o)
    (distinct : wg.Distinct used) (after : next.Distinct used')
    (accepts : wg.Accepts c env (bytes.take BUFSIZE) addr peer0 memory)
    (ok : wg.udpProcessing c env bytes addr = .ok (next, outputs)) :
    next.Remembers peer0 memory := by
  simp only [udpProcessing] at ok
  generalize bytes.take BUFSIZE = p at accepts ok
  cases accepts with
  | initiation type accepts =>
    obtain ⟨_, check⟩ := accepts.checked
    have long : ¬ p.length < 12 := by
      rw [checkMessage_length c (by decide) check]
      decide
    rw [if_neg long, if_pos type] at ok
    obtain ⟨touches, stamp⟩ := init_accepted_spec c accepts ok
    obtain ⟨publicKey, present⟩ := refines.key _ peer0 accepts.found
    refine ⟨touches.routing.nextPeer ▸ present, (touches.routing.publicKey peer0).trans publicKey, ?_⟩
    rw [stamp]
    exact TAI64N.newer_self _
  | response type accepts =>
    obtain ⟨_, check⟩ := accepts.checked
    have long : ¬ p.length < 12 := by
      rw [checkMessage_length c (by decide) check]
      decide
    rw [if_neg long, if_neg (by rw [type]; decide), if_pos type] at ok
    obtain ⟨_, t, session, rfl⟩ := resp_accepted_spec c accepts ok
    exact after.spent session
  | transport type accepts =>
    obtain ⟨t, result, _, opens⟩ := accepts.decrypted
    have long : ¬ p.length < 12 := by
      have := (Transport.decrypt_eq_some c (show _ = some (result.1, result.2) from opens)).1.1
      omega
    rw [if_neg long, if_neg (by rw [type]; decide), if_neg (by rw [type]; decide),
      if_neg (by rw [type]; decide), if_pos type] at ok
    obtain ⟨middle, first, second, u, session, rfl, refused⟩ := transport_accepted_spec c accepts ok
    have between := first.advances.distinct distinct List.nodup_nil (by simp)
    have remembered : middle.Remembers peer0 (.transport u.selfId (Transport.counterOf p)) :=
      ⟨between.spent session, between.burnt session refused⟩
    exact second.advances.remembers remembered (by simp)

/-- An initiation does not open under another static key. -/
def OpensOnlyUnder (key : X25519Key) (p : Bytes) : Prop :=
  p.getD 0 0 = 1 → ∀ other, other ≠ key →
    c.readMessage (responderState c other) (sub p 8 116) 12 = none

theorem opens_same {info info' : WgInfo} {r r' : InitProcessResult HS} (type : p.getD 0 0 = 1)
    (unrelated : OpensOnlyUnder c info.key p) (opens : processInitiation c info p = .ok (some r))
    (again : processInitiation c info' p = .ok (some r')) : r' = r := by
  obtain ⟨_, read, _⟩ := processInitiation_some c again
  have key : info'.key = info.key := by
    by_contra other
    simp [unrelated type _ other] at read
  have same : processInitiation c info' p = processInitiation c info p := by
    rw [processInitiation, processInitiation, key]
  rw [same, opens] at again
  exact (Option.some.inj (Except.ok.inj again)).symm

/-- What is remembered is not accepted again. -/
theorem Remembers.unaccepted {wg last : WgState HS} {o : Ownership}
    (remembers : last.Remembers peer0 memory) (accepts : wg.Accepts c env p addr peer0 memory)
    (refines : Refines last o) (present : ∃ pk, last.pubkeyMap.get pk = some peer0)
    (unrelated : OpensOnlyUnder c wg.info.key p) (again : Env) (source : SocketAddrV6) :
    Unaccepted c last again p source := by
  cases accepts with
  | @initiation r rs type accepts =>
    obtain ⟨_, publicKey, stale⟩ := remembers
    obtain ⟨pk, found⟩ := present
    obtain rfl : rs = pk := publicKey.symm.trans (refines.key pk peer0 found).1
    refine ⟨fun _ r' rs' other reaccepts => ?_, fun _ r' _ _ opens => ?_,
      fun two => absurd (type.symm.trans two) (by decide),
      fun three => absurd (type.symm.trans three) (by decide),
      fun four => absurd (type.symm.trans four) (by decide)⟩
    · obtain rfl := opens_same c type unrelated accepts.opened reaccepts.opened
      obtain rfl : rs' = rs := Option.some.inj (reaccepts.key.symm.trans accepts.key)
      obtain rfl : other = peer0 := Option.some.inj (reaccepts.found.symm.trans found)
      simpa [stale] using reaccepts.newer
    · rw [opens_same c type unrelated accepts.opened opens, accepts.key]
      rfl
  | @response selfId type accepts =>
    refine ⟨fun one => absurd (type.symm.trans one) (by decide),
      fun one => absurd (type.symm.trans one) (by decide), fun _ id other reaccepts => ?_,
      fun three => absurd (type.symm.trans three) (by decide),
      fun four => absurd (type.symm.trans four) (by decide)⟩
    obtain rfl : id = selfId := Except.ok.inj (reaccepts.index.symm.trans accepts.index)
    obtain ⟨handshake, _, pending, mine, _⟩ := reaccepts.verified
    refine remembers other ?_
    simp [PeerState.handshakeIds, pending, mine]
  | @transport selfId type accepts =>
    refine ⟨fun one => absurd (type.symm.trans one) (by decide),
      fun one => absurd (type.symm.trans one) (by decide),
      fun two => absurd (type.symm.trans two) (by decide),
      fun three => absurd (type.symm.trans three) (by decide), fun _ id other reaccepts => ?_⟩
    obtain rfl : id = selfId := Except.ok.inj (reaccepts.index.symm.trans accepts.index)
    obtain ⟨t, result, session, opens⟩ := reaccepts.decrypted
    have refused := remembers.2 other t (List.mem_of_find?_eq_some session)
      (PeerState.findTransportById_selfId session)
    simp [Transport.decrypt_replayed c refused] at opens

end WgState

namespace Daemon

open WgState

variable {HS : Type} (c : Crypto HS)

end Daemon

end Titun
