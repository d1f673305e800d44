import Titun.Acquisitions

/-! Every entry of the id map is for an id that its peer owns, or one whose removal is still to
come. -/
namespace Titun

variable {HS : Type} (c : Crypto HS)

namespace WgState

/-- The entries of the id map belong to the handshakes and sessions of their peers. -/
def Tidy (wg : WgState HS) : Prop := wg.registry.Tidy fun ref => (wg.peers ref).ownedIds

variable {wg next : WgState HS} {peer : PeerRef} {p : PeerState HS} {reg : Registry WgId PeerRef}

theorem Becomes.owned (becomes : Becomes peer p reg wg next) :
    (fun ref => (next.peers ref).ownedIds) =
      Function.update (fun ref => (wg.peers ref).ownedIds) peer p.ownedIds := by
  funext ref
  by_cases here : ref = peer
  · rw [here, becomes.self, Function.update_self]
  · rw [Function.update_of_ne here]
    exact (becomes.others ref here).ownedIds

theorem Becomes.tidy (becomes : Becomes peer p reg wg next)
    (tidy : reg.Tidy (Function.update (fun ref => (wg.peers ref).ownedIds) peer p.ownedIds)) : next.Tidy := by
  rw [Tidy, becomes.owned, becomes.registry]
  exact tidy

namespace Tidy

theorem quiet (tidy : wg.Tidy) (quiet : Quiet peer wg next) : next.Tidy := by
  obtain ⟨p, calm, becomes⟩ := quiet
  refine becomes.tidy ?_
  rw [calm.ownedIds, Function.update_eq_self]
  exact tidy

/-- The peer may lose what is dropped. -/
theorem released (tidy : wg.Tidy) (becomes : Becomes peer p (wg.registry.dropAll free ids) wg next)
    (kept : ∀ id ∈ (wg.peers peer).ownedIds, id ∈ p.ownedIds ∨ id ∈ ids) : next.Tidy :=
  becomes.tidy (Registry.Tidy.release tidy free kept)

/-- The peer takes an id, and may lose what is dropped after that. -/
theorem exchanged (tidy : wg.Tidy)
    (becomes : Becomes peer p ((wg.registry.insert drawn peer).dropAll free ids) wg next)
    (taken : drawn ∈ p.ownedIds ∨ drawn ∈ ids)
    (kept : ∀ id ∈ (wg.peers peer).ownedIds, id ∈ p.ownedIds ∨ id ∈ ids) : next.Tidy := by
  have more : wg.registry.Tidy (Function.update (fun ref => (wg.peers ref).ownedIds) peer
      (drawn :: (wg.peers peer).ownedIds)) := by
    refine Registry.Tidy.mono tidy fun ref k own => ?_
    by_cases here : ref = peer
    · subst here
      rw [Function.update_self]
      exact List.mem_cons_of_mem _ own
    · rwa [Function.update_of_ne here]
  have inserted := Registry.Tidy.insert (k := drawn) (r := peer) more (by simp)
  refine becomes.tidy ?_
  have left : ∀ k ∈ Function.update (fun ref => (wg.peers ref).ownedIds) peer
      (drawn :: (wg.peers peer).ownedIds) peer, k ∈ p.ownedIds ∨ k ∈ ids := fun k own => by
    rw [Function.update_self] at own
    rcases List.mem_cons.mp own with rfl | old
    · exact taken
    · exact kept k old
  have released := Registry.Tidy.release inserted free left
  rwa [Function.update_idem] at released

theorem established {addr : SocketAddrV6} {t : Transport} {evicted : List WgId}
    (establishes : Establishes addr t evicted (wg.peers peer) p) :
    p.ownedIds = t.selfId :: p.sessions.tail.map Transport.selfId ∧
    ∀ id ∈ (wg.peers peer).ownedIds, id ∈ p.ownedIds ∨ id ∈ evicted ++ (wg.peers peer).handshakeIds := by
  obtain ⟨kept, gone, sessions, split, evictedIds⟩ := establishes.sessions
  have owned : p.ownedIds = t.selfId :: kept.map Transport.selfId := by
    rw [PeerState.ownedIds_eq, PeerState.handshakeIds, establishes.handshake, sessions]
    rfl
  refine ⟨by rw [owned, sessions, List.tail_cons], fun id own => ?_⟩
  rw [PeerState.ownedIds_eq, split, List.map_append, List.mem_append, List.mem_append] at own
  rw [owned, evictedIds, List.mem_append, List.mem_cons]
  rcases own with pending | stays | goes
  · exact .inr (.inr pending)
  · exact .inl (.inr stays)
  · exact .inr (.inl goes)

theorem accepted (tidy : wg.Tidy) (accepted : wg.Accepted c env addr r peer next) : next.Tidy := by
  obtain ⟨noise, hs, q, evicted, _, establishes, becomes⟩ := accepted
  obtain ⟨owned, kept⟩ := established establishes
  refine becomes.tidy (Registry.Tidy.insert (Registry.Tidy.release tidy env.idMapFree kept) ?_)
  rw [Function.update_self, owned]
  exact List.mem_cons_self

theorem finished (tidy : wg.Tidy) (finished : wg.Finished c env addr peerId hs peer next) : next.Tidy := by
  obtain ⟨h, q, evicted, pending, establishes, becomes⟩ := finished
  obtain ⟨owned, kept⟩ := established establishes
  refine tidy.released becomes fun id own => ?_
  rcases kept id own with stays | goes
  · exact .inl stays
  · refine (List.mem_append.mp goes).symm.imp_left fun mine => ?_
    rw [PeerState.handshakeIds, pending] at mine
    obtain rfl := List.mem_singleton.mp mine
    rw [owned]
    exact List.mem_cons_self

theorem cleared (tidy : wg.Tidy) (cleared : Cleared wg env peer next) : next.Tidy :=
  Becomes.tidy cleared (Registry.Tidy.release tidy env.idMapFree fun _ => .inr)

theorem addPeer (tidy : wg.Tidy) (sound : wg.Sound) (env : Env) (pk : X25519Pubkey) :
    (wg.addPeer env pk).2.Tidy := by
  unfold WgState.addPeer
  split_ifs
  · exact tidy
  · intro id ref entry
    refine (tidy id ref entry).imp_left fun own => ?_
    -- Nothing leads to a peer that is not yet added.
    have apart : ref ≠ wg.nextPeer := (sound.ids id ref entry).ne
    simpa [apart] using own

theorem withdrawn (tidy : wg.Tidy) (withdrawn : wg.Withdrawn env peer next) : next.Tidy := by
  obtain ⟨_, becomes, rfl | ⟨_, rfl⟩⟩ := withdrawn
  · exact tidy.quiet ⟨_, .refl _, becomes⟩
  · exact tidy.exchanged becomes (.inr List.mem_cons_self) fun _ => .inl

theorem initiated (tidy : wg.Tidy) (initiated : wg.Initiated c env peer next) : next.Tidy := by
  obtain ⟨msg, hs, q, _, _, handshake, sessions, becomes⟩ := initiated
  have owned : q.ownedIds = env.id :: q.sessions.map Transport.selfId := by
    rw [PeerState.ownedIds_eq, PeerState.handshakeIds, handshake]
    rfl
  refine tidy.exchanged becomes (.inl (owned ▸ List.mem_cons_self)) fun id own => ?_
  rw [PeerState.ownedIds_eq, List.mem_append] at own
  rw [owned, sessions]
  exact own.symm.imp_left (List.mem_cons_of_mem _)

end Tidy

end WgState

open WgState

/-- Entries stay tidy, unless an id is put back into the map that its peer no longer owns. -/
theorem Section.run_tidy {sec : Section HS} {wg next : WgState HS} (tidy : wg.Tidy) (sound : wg.Sound)
    (owned : ∀ id peer, sec = .insertId id peer → id ∈ (wg.peers peer).ownedIds)
    (ok : sec.run c env wg = .ok (next, more)) : next.Tidy := by
  have does := run_does c ok
  cases sec with
  | accept p addr r peer =>
    obtain ⟨_, ⟨_, calm⟩ | ⟨_, accepted⟩⟩ := does
    · exact tidy.quiet calm
    · exact tidy.accepted c accepted
  | finish p addr selfId peerId hs peer => exact tidy.finished c does.2
  | verify p addr selfId peer | decide p addr selfId peer => exact tidy.quiet does.1
  | send packet peer | keepalive peer => exact tidy.quiet does.1
  | insertId selfId peer =>
    refine does.2.tidy ?_
    rw [Function.update_eq_self]
    exact Registry.Tidy.insert tidy (owned selfId peer rfl)
  | setEndpoint addr peer =>
    refine does.2.2.tidy ?_
    have same : ((wg.peers peer).roamed addr).ownedIds = (wg.peers peer).ownedIds := rfl
    rw [same, Function.update_eq_self]
    exact tidy
  | cookie p peer | doHandshake peer | rearm peer | dropScope peer => exact tidy.quiet does.2
  | dropHandshake peer => exact tidy.released does.2 fun id own => (List.mem_append.mp own).symm
  | clear peer => exact tidy.cleared does.2.1
  | addPeer pk =>
    obtain ⟨_, rfl⟩ := does
    exact tidy.addPeer sound env pk
  | configure command peer =>
    obtain ⟨_, q, dropped, configured, becomes⟩ := does
    refine becomes.tidy (Registry.Tidy.release tidy env.idMapFree fun id own => ?_)
    by_cases same : (wg.peers peer).info.psk = command.presharedKey
    · obtain ⟨handshake, sessions, _⟩ := configured.kept same
      refine .inl ?_
      rwa [PeerState.ownedIds_eq, PeerState.handshakeIds, handshake, sessions,
        ← PeerState.handshakeIds, ← PeerState.ownedIds_eq]
    · exact .inr ((configured.rekeyed same).2.2 ▸ own)
  | unlist pk => obtain ⟨_, _, rfl⟩ | ⟨_, _, _, rfl⟩ := does <;> exact tidy
  | detach peer => exact tidy.cleared does.2
  | storeKey key =>
    obtain ⟨_, rfl⟩ := does
    exact tidy

theorem Op.begin_tidy {op : Op} {wg next : WgState HS} (tidy : wg.Tidy)
    (ok : op.begin c env wg = .ok (next, task)) : next.Tidy := by
  have does := begin_does c ok
  cases op with
  | config op =>
    cases op <;>
    · obtain ⟨rfl, _⟩ := does
      exact tidy
  | setKey order key | packet padded =>
    obtain ⟨rfl, _⟩ := does
    exact tidy
  | datagram bytes addr =>
    obtain ⟨⟨loadMonitor, rfl⟩, _⟩ := does
    exact tidy
  | timer peer kind => exact tidy.quiet does.1
  | resend loop =>
    obtain ⟨_, ⟨_, withdrawn⟩ | ⟨_, initiated⟩⟩ := does
    · exact tidy.withdrawn withdrawn
    · exact tidy.initiated c initiated
  | removeDeferred id =>
    obtain ⟨_, rfl⟩ := does
    rw [Tidy, WgState.removeDeferred_registry]
    exact Registry.Tidy.settle tidy id
  | setPort newPort prepared | setFwmark newFwmark marked | cancelLoop loop | session peer i task | startRx
  | takeSocket | updateCookieSecret secret | updateMtu mtu =>
    obtain ⟨_, ⟨peer, calm⟩, _⟩ := does
    exact tidy.quiet calm

namespace Program

/-- A section that puts an id back into the map does so only while its peer owns the id. -/
def Restores (s : Program HS) (l : Label) : Prop :=
  l.event = .proceed → ∀ id peer rest, s.tasks l.task = .insertId id peer :: rest →
    id ∈ (s.wg.peers peer).ownedIds

theorem Step.tidy {s next : Program HS} {l : Label} (tidy : s.wg.Tidy) (sound : s.Sound)
    (restores : s.Restores l) (step : Step c s l next) : next.wg.Tidy := by
  cases step with
  | start idle enabled ok => exact Op.begin_tidy c tidy ok
  | proceed head free ok =>
    refine Section.run_tidy c tidy sound.wg (fun id peer same => ?_) ok
    subst same
    exact restores rfl id peer _ head

theorem start_tidy (info : WgInfo) (secret : U8Array 32) (mtu : BitVec 32) (now : Instant) :
    (start info secret mtu now : Program HS).wg.Tidy := by
  intro id ref entry
  simp [start, WgState.new, WgState.registry, Registry.get] at entry

end Program

end Titun
