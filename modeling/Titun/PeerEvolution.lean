import Titun.PeerState

/-! How a peer changes: it passes ids on or gets new ones, its sessions come from its sessions
or from such ids, and neither its replay windows nor its timestamp go back. -/
namespace Titun

namespace Transport

variable {HS : Type} (c : Crypto HS)

/-- What a session becomes: it keeps its id and refuses what it refused. -/
structure Continues (t u : Transport) : Prop where
  selfId : u.selfId = t.selfId
  refused : ∀ n, t.recvAr.check n = false → u.recvAr.check n = false

theorem Continues.refl (t : Transport) : t.Continues t := ⟨rfl, fun _ refused => refused⟩

theorem Continues.trans {t u v : Transport} (first : t.Continues u) (second : u.Continues v) :
    t.Continues v :=
  ⟨second.selfId.trans first.selfId, fun n refused => second.refused n (first.refused n refused)⟩

theorem encrypt_continues (t : Transport) (msg : Bytes) : t.Continues (t.encrypt c msg).2 := by
  unfold encrypt
  dsimp only
  split_ifs <;> exact ⟨rfl, fun _ refused => refused⟩

theorem accept_continues {t : Transport} (ok : t.recvAr.check counter = true) :
    t.Continues (t.accept counter) := by
  refine ⟨rfl, fun n refused => ?_⟩
  have later := AntiReplay.check_stays_refused refused counter
  rwa [AntiReplay.checkAndUpdate_eq, ok] at later

theorem accept_refuses {t : Transport} (ok : t.recvAr.check counter = true) :
    (t.accept counter).recvAr.check counter = false := by
  have refused := AntiReplay.check_self t.recvAr counter
  rwa [AntiReplay.checkAndUpdate_eq, ok] at refused

end Transport

namespace PeerState

variable {HS : Type}

variable {id : WgId}

theorem session_owned {p : PeerState HS} {t : Transport} (session : t ∈ p.transports.val) :
    t.selfId ∈ p.ownedIds := List.mem_append_right _ (List.mem_map.mpr ⟨t, session, rfl⟩)

theorem findTransportById_selfId {p : PeerState HS} {t : Transport}
    (session : p.findTransportById id = some t) : t.selfId = id := by
  have found := List.find?_some (p := fun u : Transport => decide (u.selfId = id)) session
  exact of_decide_eq_true found

/-- What a peer becomes when it gets the new ids `drawn`. -/
structure Evolves (drawn : List WgId) (p q : PeerState HS) : Prop where
  publicKey : q.info.publicKey = p.info.publicKey
  stamp : ∀ t : TAI64N, t.newer p.lastHandshake = false → t.newer q.lastHandshake = false
  ids : q.ownedIds.Subperm (drawn ++ p.ownedIds)
  pending : ∀ id ∈ q.handshakeIds, id ∈ drawn ∨ id ∈ p.handshakeIds
  session : ∀ u ∈ q.transports.val, (∃ t ∈ p.transports.val, t.Continues u) ∨
    u.selfId ∈ drawn ∨ u.selfId ∈ p.handshakeIds

namespace Evolves

variable {p q r : PeerState HS}

theorem of_eq (publicKey : q.info.publicKey = p.info.publicKey)
    (stamp : q.lastHandshake = p.lastHandshake) (handshake : q.handshake = p.handshake)
    (transports : q.transports = p.transports) : p.Evolves [] q where
  publicKey := publicKey
  stamp := fun _ old => stamp ▸ old
  ids := by
    rw [List.nil_append, ownedIds, ownedIds, handshakeIds, handshakeIds, handshake, transports]
  pending := by
    rw [handshakeIds, handshakeIds, handshake]
    exact fun _ => .inr
  session := by
    rw [transports]
    exact fun u member => .inl ⟨u, member, .refl u⟩

theorem refl (p : PeerState HS) : p.Evolves [] p := of_eq rfl rfl rfl rfl

theorem append (first : p.Evolves xs q) (second : q.Evolves ys r) : p.Evolves (ys ++ xs) r where
  publicKey := second.publicKey.trans first.publicKey
  stamp := fun t old => second.stamp t (first.stamp t old)
  ids := by
    rw [List.append_assoc]
    exact second.ids.trans ((List.subperm_append_left ys).mpr first.ids)
  pending := fun id member => by
    rcases second.pending id member with new | old
    · exact .inl (List.mem_append_left _ new)
    · exact (first.pending id old).imp_left (List.mem_append_right _)
  session := fun u member => by
    rcases second.session u member with ⟨t, old, continues⟩ | new | pending
    · rcases first.session t old with ⟨s, older, before⟩ | from_
      · exact .inl ⟨s, older, before.trans continues⟩
      · rw [continues.selfId]
        exact .inr (from_.imp_left (List.mem_append_right _))
    · exact .inr (.inl (List.mem_append_left _ new))
    · exact .inr ((first.pending _ pending).imp_left (List.mem_append_right _))

theorem trans (first : p.Evolves drawn q) (second : q.Evolves [] r) : p.Evolves drawn r :=
  first.append second

theorem weaken (evolves : p.Evolves [] q) (drawn : List WgId) : p.Evolves drawn q where
  publicKey := evolves.publicKey
  stamp := evolves.stamp
  ids := evolves.ids.trans (List.sublist_append_right drawn _).subperm
  pending := fun id member => .inr ((evolves.pending id member).resolve_left List.not_mem_nil)
  session := fun u member => (evolves.session u member).imp_right fun source =>
    .inr (source.resolve_left List.not_mem_nil)

theorem sessions (transports : ArrayVec Transport 3)
    (ids : transports.val.map Transport.selfId = p.transports.val.map Transport.selfId)
    (continues : ∀ u ∈ transports.val, ∃ t ∈ p.transports.val, t.Continues u) :
    p.Evolves [] { p with transports } where
  publicKey := rfl
  stamp := fun _ old => old
  ids := by
    simp only [ownedIds, handshakeIds, ids, List.nil_append]
    exact List.Subperm.refl _
  pending := fun _ => .inr
  session := fun u member => .inl (continues u member)

theorem replaceFirst {pred : Transport → Bool} {u : Transport}
    (continues : ∀ t, p.transports.val.find? pred = some t → t.Continues u) :
    p.Evolves [] { p with transports := p.transports.replaceFirst pred u } := by
  cases found : p.transports.val.find? pred with
  | none => rw [ArrayVec.replaceFirst_none found]; exact refl p
  | some t =>
    have next := continues t found
    refine sessions _ (ArrayVec.map_replaceFirst _ _ _ _ fun x same => ?_) fun v member => ?_
    · rw [next.selfId, Option.some.inj (found.symm.trans same)]
    · rcases ArrayVec.mem_replaceFirst member with old | rfl
      · exact ⟨v, old, .refl v⟩
      · exact ⟨t, List.mem_of_find?_eq_some found, next⟩

theorem modify (i : Nat) {f : Transport → Transport} (continues : ∀ t : Transport, t.Continues (f t)) :
    p.Evolves [] { p with transports := p.transports.modify i f } := by
  refine sessions _ (ArrayVec.map_modify _ i f _ fun t => (continues t).selfId) fun u member => ?_
  obtain ⟨t, old, rfl | rfl⟩ := ArrayVec.mem_modify member
  · exact ⟨u, old, .refl u⟩
  · exact ⟨t, old, continues t⟩

theorem cleared (publicKey : q.info.publicKey = p.info.publicKey)
    (stamp : q.lastHandshake = p.lastHandshake) (handshake : q.handshake = none)
    (transports : q.transports = .empty) : p.Evolves [] q where
  publicKey := publicKey
  stamp := fun _ old => stamp ▸ old
  ids := by simp [ownedIds, handshakeIds, handshake, transports, ArrayVec.empty]
  pending := by simp [handshakeIds, handshake]
  session := by simp [transports, ArrayVec.empty]

theorem rehandshake {drawn : List WgId} (handshake : Option (Handshake HS))
    (ids : drawn = (handshake.map Handshake.selfId).toList) : p.Evolves drawn { p with handshake } where
  publicKey := rfl
  stamp := fun _ old => old
  ids := by
    subst ids
    exact (List.subperm_append_left _).mpr (List.sublist_append_right _ _).subperm
  pending := fun id member => .inl (ids ▸ member)
  session := fun u member => .inl ⟨u, member, .refl u⟩

theorem pushed {drawn : List WgId} {t : Transport} (publicKey : q.info.publicKey = p.info.publicKey)
    (stamp : ∀ t : TAI64N, t.newer p.lastHandshake = false → t.newer q.lastHandshake = false)
    (handshake : q.handshake = none) (transports : q.transports = (p.transports.pushFront t).2)
    (id : [t.selfId].Subperm (drawn ++ p.handshakeIds)) : p.Evolves drawn q := by
  obtain ⟨kept, sublist, front⟩ := p.transports.pushFront_val t
  have sessions : q.transports.val = t :: kept := by rw [transports, front]
  refine ⟨publicKey, stamp, ?_, by simp [handshakeIds, handshake], fun u member => ?_⟩
  · have owned : q.ownedIds = [t.selfId] ++ kept.map Transport.selfId := by
      simp [ownedIds, handshakeIds, handshake, sessions]
    rw [owned, ownedIds, ← List.append_assoc]
    exact id.append (sublist.map _).subperm
  · rw [sessions] at member
    rcases List.mem_cons.mp member with rfl | old
    · exact .inr (List.mem_append.mp (id.subset List.mem_cons_self))
    · exact .inl ⟨u, sublist.subset old, .refl u⟩

end Evolves

end PeerState

end Titun
