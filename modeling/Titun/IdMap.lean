import Titun.ResponseCompletion
import Titun.ListedRoutes

/-! While operations run one at a time, the id map holds the ids of the handshakes and sessions of the
listed peers and no others. -/
namespace Titun

variable {HS : Type} (c : Crypto HS)

open WgState

namespace WgState

/-- The id map is exact, up to what is left for later. -/
def ExactIds (wg : WgState HS) : Prop := wg.registry.Exact fun ref => (wg.peers ref).ownedIds

variable {wg next : WgState HS} {peer : PeerRef} {p : PeerState HS} {reg : Registry WgId PeerRef}

theorem Becomes.exact (becomes : Becomes peer p reg wg next)
    (exact : reg.Exact (Function.update (fun ref => (wg.peers ref).ownedIds) peer p.ownedIds)) :
    next.ExactIds := by
  rw [ExactIds, becomes.owned, becomes.registry]
  exact exact

namespace ExactIds

theorem quiet (exact : wg.ExactIds) (quiet : Quiet peer wg next) : next.ExactIds := by
  obtain ⟨p, calm, becomes⟩ := quiet
  refine becomes.exact ?_
  rw [calm.ownedIds, Function.update_eq_self]
  exact exact

theorem released (exact : wg.ExactIds) (becomes : Becomes peer p (wg.registry.dropAll free ids) wg next)
    (split : (wg.peers peer).ownedIds.Perm (p.ownedIds ++ ids)) : next.ExactIds :=
  becomes.exact (Registry.Exact.release exact free split)

theorem accepted (exact : wg.ExactIds) (fresh : wg.idMap.get env.id = none)
    (accepted : wg.Accepted c env addr r peer next) : next.ExactIds := by
  obtain ⟨noise, hs, q, evicted, _, establishes, becomes⟩ := accepted
  obtain ⟨kept, gone, sessions, split, rfl⟩ := establishes.sessions
  have before : (wg.peers peer).ownedIds = (wg.peers peer).handshakeIds ++
      (kept.map Transport.selfId ++ gone.map Transport.selfId) := by
    rw [PeerState.ownedIds_eq, split, List.map_append]
  have after : q.ownedIds = env.id :: kept.map Transport.selfId := by
    rw [PeerState.ownedIds_eq, PeerState.handshakeIds, establishes.handshake, sessions]
    rfl
  have perm : (wg.peers peer).ownedIds.Perm (kept.map Transport.selfId ++
      (gone.map Transport.selfId ++ (wg.peers peer).handshakeIds)) := by
    rw [before]
    exact List.perm_append_comm.trans (List.Perm.of_eq (List.append_assoc _ _ _))
  have dropped := Registry.Exact.release exact env.idMapFree perm
  have free : (wg.registry.dropAll env.idMapFree (gone.map Transport.selfId ++
      (wg.peers peer).handshakeIds)).get env.id = none := by
    by_contra taken
    obtain ⟨ref, entry⟩ := Option.ne_none_iff_exists'.mp taken
    cases fresh.symm.trans (Registry.get_of_dropAll entry)
  refine becomes.exact ?_
  have taken := Registry.Exact.take (r := peer) dropped free
  rwa [Function.update_self, Function.update_idem, ← after] at taken

theorem finished (exact : wg.ExactIds) (finished : wg.Finished c env addr peerId hs peer next) :
    next.ExactIds := by
  obtain ⟨h, q, evicted, pending, establishes, becomes⟩ := finished
  obtain ⟨kept, gone, sessions, split, rfl⟩ := establishes.sessions
  refine exact.released becomes ?_
  have before : (wg.peers peer).ownedIds = h.selfId ::
      (kept.map Transport.selfId ++ gone.map Transport.selfId) := by
    rw [PeerState.ownedIds_eq, PeerState.handshakeIds, pending, split, List.map_append]
    rfl
  have after : q.ownedIds = h.selfId :: kept.map Transport.selfId := by
    rw [PeerState.ownedIds_eq, PeerState.handshakeIds, establishes.handshake, sessions]
    rfl
  rw [before, after]
  exact List.Perm.refl _

theorem cleared (exact : wg.ExactIds) (cleared : Cleared wg env peer next) : next.ExactIds :=
  Becomes.exact cleared (Registry.Exact.release exact env.idMapFree (List.Perm.refl _))

theorem addPeer (exact : wg.ExactIds) (sound : wg.Sound) (env : Env) (pk : X25519Pubkey) :
    (wg.addPeer env pk).2.ExactIds := by
  unfold WgState.addPeer
  split_ifs
  · exact exact
  · refine Registry.Exact.congr exact (fun _ => rfl) rfl fun ref => ?_
    by_cases here : ref = wg.nextPeer
    · -- Nothing is owned by a peer that is not yet added.
      subst here
      have nothing : (wg.peers wg.nextPeer).ownedIds = [] := by
        refine List.eq_nil_iff_forall_not_mem.mpr fun id own => ?_
        exact lt_irrefl _ (sound.ids id wg.nextPeer (exact.entry wg.nextPeer id own))
      simp [nothing, (PeerState.new_blank pk env.now).ownedIds]
    · simp [here]

theorem withdrawn (exact : wg.ExactIds)
    (fresh : (wg.peers peer).info.endpoint.isSome = true → wg.idMap.get env.id = none)
    (withdrawn : wg.Withdrawn env peer next) : next.ExactIds := by
  obtain ⟨_, becomes, rfl | ⟨endpoint, rfl⟩⟩ := withdrawn
  · exact exact.quiet ⟨_, .refl _, becomes⟩
  · refine becomes.exact ?_
    have taken := Registry.Exact.take (r := peer) exact (fresh endpoint)
    have split : (Function.update (fun ref => (wg.peers ref).ownedIds) peer
        (env.id :: (wg.peers peer).ownedIds) peer).Perm ((wg.peers peer).ownedIds ++ [env.id]) := by
      rw [Function.update_self]
      exact (List.perm_append_singleton _ _).symm
    have released := Registry.Exact.release taken env.idMapFree split
    rwa [Function.update_idem] at released

theorem initiated (exact : wg.ExactIds) (fresh : wg.idMap.get env.id = none)
    (initiated : wg.Initiated c env peer next) : next.ExactIds := by
  obtain ⟨msg, hs, q, _, _, handshake, sessions, becomes⟩ := initiated
  have after : q.ownedIds = env.id :: (wg.peers peer).sessions.map Transport.selfId := by
    rw [PeerState.ownedIds_eq, PeerState.handshakeIds, handshake, sessions]
    rfl
  refine becomes.exact ?_
  have taken := Registry.Exact.take (r := peer) exact fresh
  have split : (Function.update (fun ref => (wg.peers ref).ownedIds) peer
      (env.id :: (wg.peers peer).ownedIds) peer).Perm (q.ownedIds ++ (wg.peers peer).handshakeIds) := by
    rw [Function.update_self, after, PeerState.ownedIds_eq, List.cons_append]
    exact List.perm_append_comm.cons _
  have released := Registry.Exact.release taken env.idMapFree split
  rwa [Function.update_idem] at released

end ExactIds

end WgState

/-- A section generates an id. -/
def Section.Draws (wg : WgState HS) : Section HS → Prop
  | accept _ _ r peer => r.timestamp.newer (wg.peers peer).lastHandshake = true
  | _ => False

/-- The map stays exact where a new id is not in it, and only an owned id is put back. -/
theorem Section.run_exact {sec : Section HS} {wg next : WgState HS} (exact : wg.ExactIds) (sound : wg.Sound)
    (fresh : sec.Draws wg → wg.idMap.get env.id = none)
    (owned : ∀ id peer, sec = .insertId id peer → id ∈ (wg.peers peer).ownedIds)
    (ok : sec.run c env wg = .ok (next, more)) : next.ExactIds := by
  have does := run_does c ok
  cases sec with
  | accept p addr r peer =>
    obtain ⟨_, ⟨_, calm⟩ | ⟨answers, accepted⟩⟩ := does
    · exact exact.quiet calm
    · exact exact.accepted c (fresh answers.1) accepted
  | finish p addr selfId peerId hs peer => exact exact.finished c does.2
  | verify p addr selfId peer | decide p addr selfId peer => exact exact.quiet does.1
  | send packet peer | keepalive peer => exact exact.quiet does.1
  | insertId selfId peer =>
    refine does.2.exact ?_
    rw [Function.update_eq_self]
    have entry := exact.entry peer selfId (owned selfId peer rfl)
    refine Registry.Exact.congr exact (fun id => ?_) rfl fun _ => List.Perm.refl _
    rw [Registry.get_insert]
    split_ifs with here
    · rw [here, entry]
    · rfl
  | setEndpoint addr peer =>
    refine does.2.2.exact ?_
    have same : ((wg.peers peer).roamed addr).ownedIds = (wg.peers peer).ownedIds := rfl
    rw [same, Function.update_eq_self]
    exact exact
  | cookie p peer | doHandshake peer | rearm peer | dropScope peer => exact exact.quiet does.2
  | dropHandshake peer => exact exact.released does.2 List.perm_append_comm
  | clear peer => exact exact.cleared does.2.1
  | addPeer pk =>
    obtain ⟨_, rfl⟩ := does
    exact exact.addPeer sound env pk
  | configure command peer =>
    obtain ⟨_, q, dropped, configured, becomes⟩ := does
    refine becomes.exact (Registry.Exact.release exact env.idMapFree ?_)
    by_cases same : (wg.peers peer).info.psk = command.presharedKey
    · obtain ⟨handshake, sessions, rfl⟩ := configured.kept same
      rw [List.append_nil, PeerState.ownedIds_eq, PeerState.ownedIds_eq q, PeerState.handshakeIds,
        PeerState.handshakeIds, handshake, sessions]
    · obtain ⟨handshake, sessions, rfl⟩ := configured.rekeyed same
      rw [PeerState.Blank.ownedIds ⟨handshake, sessions⟩, List.nil_append]
  | unlist pk => obtain ⟨_, _, rfl⟩ | ⟨_, _, _, rfl⟩ := does <;> exact exact
  | detach peer => exact exact.cleared does.2
  | storeKey key =>
    obtain ⟨_, rfl⟩ := does
    exact exact

def Op.Draws (wg : WgState HS) : Op → Prop
  | .resend loop => (wg.peers loop.peer).info.endpoint.isSome = true
  | _ => False

theorem Op.begin_exact {op : Op} {wg next : WgState HS} (exact : wg.ExactIds)
    (fresh : op.Draws wg → wg.idMap.get env.id = none) (later : ∀ id, op = .removeDeferred id → id ∈ wg.deferred)
    (ok : op.begin c env wg = .ok (next, task)) : next.ExactIds := by
  have does := begin_does c ok
  cases op with
  | config op =>
    cases op <;>
    · obtain ⟨rfl, _⟩ := does
      exact exact
  | setKey order key | packet padded =>
    obtain ⟨rfl, _⟩ := does
    exact exact
  | datagram bytes addr =>
    obtain ⟨⟨loadMonitor, rfl⟩, _⟩ := does
    exact exact
  | timer peer kind => exact exact.quiet does.1
  | resend loop =>
    obtain ⟨_, ⟨_, withdrawn⟩ | ⟨initiates, initiated⟩⟩ := does
    · exact exact.withdrawn fresh withdrawn
    · exact exact.initiated c (fresh initiates.1) initiated
  | removeDeferred id =>
    obtain ⟨_, rfl⟩ := does
    rw [ExactIds, WgState.removeDeferred_registry]
    exact Registry.Exact.settle exact (later id rfl)
  | setPort newPort prepared | setFwmark newFwmark marked | cancelLoop loop | session peer i task | startRx
  | takeSocket | updateCookieSecret secret | updateMtu mtu =>
    obtain ⟨_, ⟨peer, calm⟩, _⟩ := does
    exact exact.quiet calm

namespace WgState

variable {wg next : WgState HS}

theorem Becomes.deferred (becomes : Becomes peer p reg wg next) : next.deferred = reg.deferred :=
  congrArg Registry.deferred becomes.registry

theorem Quiet.deferred (quiet : Quiet peer wg next) : next.deferred = wg.deferred := by
  obtain ⟨_, _, becomes⟩ := quiet
  exact Becomes.deferred becomes

end WgState

/-- While the id map is not locked by others, every guard takes its id out at once. -/
theorem Section.run_deferred {sec : Section HS} {wg next : WgState HS} (unlocked : ∀ id, env.idMapFree id = true)
    (ok : sec.run c env wg = .ok (next, more)) : next.deferred = wg.deferred := by
  have does := run_does c ok
  have atOnce (ids : List WgId) : (wg.registry.dropAll env.idMapFree ids).deferred = wg.deferred :=
    Registry.deferred_dropAll_of_free wg.registry ids unlocked
  cases sec with
  | accept p addr r peer =>
    obtain ⟨_, ⟨_, calm⟩ | ⟨_, _, _, _, _, _, _, becomes⟩⟩ := does
    · exact calm.deferred
    · exact becomes.deferred.trans (atOnce _)
  | finish p addr selfId peerId hs peer =>
    obtain ⟨_, _, _, _, _, _, becomes⟩ := does
    exact becomes.deferred.trans (atOnce _)
  | verify p addr selfId peer | decide p addr selfId peer | send packet peer | keepalive peer =>
    exact does.1.deferred
  | cookie p peer | doHandshake peer | rearm peer | dropScope peer => exact does.2.deferred
  | insertId selfId peer => exact does.2.deferred
  | setEndpoint addr peer => exact does.2.2.deferred
  | dropHandshake peer => exact does.2.deferred.trans (atOnce _)
  | clear peer => exact does.2.1.deferred.trans (atOnce _)
  | detach peer => exact does.2.deferred.trans (atOnce _)
  | configure command peer =>
    obtain ⟨_, _, _, _, becomes⟩ := does
    exact becomes.deferred.trans (atOnce _)
  | addPeer pk =>
    obtain ⟨_, rfl⟩ := does
    unfold WgState.addPeer
    split_ifs <;> rfl
  | unlist pk => obtain ⟨_, _, rfl⟩ | ⟨_, _, _, rfl⟩ := does <;> rfl
  | storeKey key =>
    obtain ⟨_, rfl⟩ := does
    rfl

theorem Op.begin_deferred {op : Op} {wg next : WgState HS} (unlocked : ∀ id, env.idMapFree id = true)
    (settled : wg.deferred = []) (ok : op.begin c env wg = .ok (next, task)) : next.deferred = [] := by
  have does := begin_does c ok
  have atOnce (reg : Registry WgId PeerRef) (ids : List WgId) :
      (reg.dropAll env.idMapFree ids).deferred = reg.deferred :=
    Registry.deferred_dropAll_of_free reg ids unlocked
  cases op with
  | config op =>
    cases op <;>
    · obtain ⟨rfl, _⟩ := does
      exact settled
  | setKey order key | packet padded =>
    obtain ⟨rfl, _⟩ := does
    exact settled
  | datagram bytes addr =>
    obtain ⟨⟨loadMonitor, rfl⟩, _⟩ := does
    exact settled
  | timer peer kind => exact does.1.deferred.trans settled
  | resend loop =>
    obtain ⟨_, ⟨_, _, becomes, rfl | ⟨_, rfl⟩⟩ | ⟨_, _, _, _, _, _, _, _, becomes⟩⟩ := does
    · exact becomes.deferred.trans settled
    · exact becomes.deferred.trans ((atOnce _ _).trans settled)
    · exact becomes.deferred.trans ((atOnce _ _).trans settled)
  | removeDeferred id =>
    obtain ⟨_, rfl⟩ := does
    simp [WgState.removeDeferred, settled]
  | setPort newPort prepared | setFwmark newFwmark marked | cancelLoop loop | session peer i task | startRx
  | takeSocket | updateCookieSecret secret | updateMtu mtu =>
    obtain ⟨_, ⟨peer, calm⟩, _⟩ := does
    exact calm.deferred.trans settled

theorem Section.run_lists {sec : Section HS} {wg next : WgState HS} (ok : sec.run c env wg = .ok (next, more))
    (listed : wg.Listed ref) : next.Listed ref ∨ .detach ref ∈ more := by
  obtain ⟨pk, found⟩ := listed
  have does := run_does c ok
  rcases run_becomes c ok with ⟨_, _, _, becomes⟩ | ⟨k, rfl, rfl⟩ | ⟨k, rfl, _⟩ | ⟨key, _, rfl⟩
  · exact .inl ⟨pk, by rwa [becomes.pubkeyMap]⟩
  · refine .inl ?_
    unfold WgState.addPeer
    split_ifs with exists'
    · exact ⟨pk, found⟩
    · refine ⟨pk, ?_⟩
      rw [HashMap.get_insert, if_neg (by rintro rfl; simp [found] at exists')]
      exact found
  · obtain ⟨_, _, rfl⟩ | ⟨peer, gone, rfl, rfl⟩ := does
    · exact .inl ⟨pk, found⟩
    · by_cases same : pk = k
      · subst same
        obtain rfl := Option.some.inj (gone.symm.trans found)
        exact .inr List.mem_cons_self
      · refine .inl ⟨pk, ?_⟩
        rw [HashMap.get_remove, if_neg same]
        exact found
  · exact .inl ⟨pk, found⟩

theorem Op.begin_accepts {op : Op} {wg next : WgState HS} (ok : op.begin c env wg = .ok (next, task))
    (member : .accept p addr r peer ∈ task) : task = [.accept p addr r peer] ∧ wg.Listed peer := by
  have does := begin_does c ok
  rcases begin_plain c ok member with ⟨bytes, source, rfl⟩ | ⟨order, key, rfl⟩ | ⟨reads, _⟩
  · obtain ⟨_, received⟩ := does
    cases received with
    | nothing => cases member
    | accept _ _ found =>
      cases List.mem_singleton.mp member
      exact ⟨rfl, _, found⟩
    | verify _ _ _ | cookie _ _ | decide _ => cases List.mem_singleton.mp member
  · obtain ⟨_, rfl⟩ := does
    simp at member
  · exact absurd trivial reads

namespace Program

/-- The step generates an id. -/
def Draws (s : Program HS) (l : Label) : Prop :=
  match l.event with
  | .start op => op.Draws s.wg
  | .proceed => ∃ sec rest, s.tasks l.task = sec :: rest ∧ sec.Draws s.wg

/-- A step of operations that run one at a time and generate ids that the map does not hold. As nothing
else runs, the map is not locked when a guard is dropped. -/
structure Complete (s : Program HS) (l : Label) (next : Program HS) : Prop where
  step : Step c s l next
  alone : s.OneAtATime l
  fresh : s.Draws l → s.wg.idMap.get l.env.id = none
  unlocked : ∀ id, l.env.idMapFree id = true

/-- The peers that own something are listed or about to be cleared, and what is dropped is gone. -/
structure Owning (s : Program HS) : Prop where
  completing : s.Completing c
  routed : s.Routed
  exact : s.wg.ExactIds
  atOnce : s.wg.deferred = []
  accepting : ∀ i p addr r peer, .accept p addr r peer ∈ s.tasks i →
    s.tasks i = [.accept p addr r peer] ∧ s.wg.Listed peer
  listed : ∀ ref, ¬ (s.wg.peers ref).Blank → s.wg.Listed ref ∨ ∃ i, .detach ref ∈ s.tasks i

theorem start_owning (info : WgInfo) (secret : U8Array 32) (mtu : BitVec 32) (now : Instant) :
    Owning c (start info secret mtu now) where
  completing := start_completing c info secret mtu now
  routed := start_routed info secret mtu now
  exact := Registry.Exact.congr .empty (fun _ => rfl) rfl fun _ => List.Perm.refl _
  atOnce := rfl
  accepting := by simp [start]
  listed ref owns := absurd (PeerState.new_blank _ _) owns

namespace Owning

variable {c} {s next : Program HS}

theorem settled (owning : s.Owning c) (alone : s.OneAtATime l) (step : Step c s l next) : s.Settled c l := by
  rintro i peer apart ⟨p, addr, selfId, peerId, hs, member⟩
  cases step with
  | start _ _ _ =>
    rw [alone _ rfl i] at member
    cases member
  | proceed head _ _ =>
    rw [owning.routed.sequential.others_idle head apart] at member
    cases member

theorem owner_iff {id : WgId} (owning : s.Owning c) : s.wg.idMap.get id = some ref ↔ id ∈ (s.wg.peers ref).ownedIds :=
  Registry.Exact.get_iff owning.exact owning.atOnce

/-- While nothing is under way, only listed peers are referred to. -/
theorem listed_of_referenced (owning : s.Owning c) (idle : ∀ i, s.tasks i = []) (refers : s.Referenced ref) :
    s.wg.Listed ref := by
  rcases refers with (listed | ⟨id, entry⟩ | ⟨ip, route⟩) | ⟨i, sec, member, _⟩
  · exact listed
  · have owns : ¬ (s.wg.peers ref).Blank := by
      intro blank
      rw [owning.owner_iff, blank.ownedIds] at entry
      cases entry
    apply (owning.listed ref owns).resolve_right
    rintro ⟨i, pending⟩
    rw [idle i] at pending
    cases pending
  · exact owning.routed.listed idle route
  · rw [idle i] at member
    cases member

theorem started {wg : WgState HS} (owning : s.Owning c)
    (complete : Complete c s ⟨i, .start op, env⟩ ⟨wg, Function.update s.tasks i task⟩) (enabled : Enabled s env op)
    (ok : op.begin c env s.wg = .ok (wg, task)) :
    Owning c ⟨wg, Function.update s.tasks i task⟩ := by
  have idle := complete.alone op rfl
  obtain ⟨_, map, gains⟩ := Op.begin_keeps c ok
  refine ⟨owning.completing.step (owning.settled complete.alone complete.step) complete.step,
    owning.routed.step complete.alone complete.step,
    Op.begin_exact c owning.exact complete.fresh (fun id same => ?_) ok,
    Op.begin_deferred c complete.unlocked owning.atOnce ok, fun j p addr r peer member => ?_, fun ref owns => ?_⟩
  · subst same
    exact enabled
  · obtain ⟨rfl, new⟩ := mem_started idle member
    obtain ⟨only, pk, found⟩ := Op.begin_accepts c ok new
    exact ⟨(Function.update_self ..).trans only, pk, map ▸ found⟩
  · refine .inl ?_
    rw [WgState.Listed, map]
    rcases gains with keeps | ⟨loop, rfl, initiates, _, _, q, _, _, _, _, becomes⟩
    · refine (owning.listed ref fun blank => owns ((keeps ref).blank blank)).resolve_right ?_
      rintro ⟨j, pending⟩
      rw [idle j] at pending
      cases pending
    · by_cases here : ref = loop.peer
      · subst here
        exact owning.listed_of_referenced idle enabled.2.1
      · refine (owning.listed ref fun blank => owns ?_).resolve_right ?_
        · exact (PeerState.Keeps.of_calm (becomes.others ref here)).blank blank
        · rintro ⟨j, pending⟩
          rw [idle j] at pending
          cases pending

theorem proceeded {wg : WgState HS} (owning : s.Owning c)
    (complete : Complete c s ⟨i, .proceed, env⟩ ⟨wg, Function.update s.tasks i (more ++ rest)⟩)
    (head : s.tasks i = sec :: rest) (ok : sec.run c env s.wg = .ok (wg, more)) :
    Owning c ⟨wg, Function.update s.tasks i (more ++ rest)⟩ := by
  have sequential := owning.routed.sequential
  refine ⟨owning.completing.step (owning.settled complete.alone complete.step) complete.step,
    owning.routed.step complete.alone complete.step,
    Section.run_exact c owning.exact owning.completing.sound.wg
      (fun draws => complete.fresh ⟨sec, rest, head, draws⟩) (fun id peer same => ?_) ok,
    (Section.run_deferred c complete.unlocked ok).trans owning.atOnce,
    fun j p addr r peer member => ?_, fun ref owns => ?_⟩
  · subst same
    exact owning.completing.restores ⟨i, .proceed, env⟩ rfl id peer rest head
  · obtain ⟨rfl, new | old⟩ := sequential.mem_proceeded head member
    · cases Section.run_leads c ok _ new
    · obtain ⟨alone, _⟩ := owning.accepting j p addr r peer (head ▸ List.mem_cons_of_mem _ old)
      obtain ⟨_, rfl⟩ := List.cons.inj (head.symm.trans alone)
      cases old
  · -- A peer that owned something before is listed still, or its removal has still to clear it.
    have owned (before : ¬ (s.wg.peers ref).Blank) :
        wg.Listed ref ∨ ∃ j, .detach ref ∈ Function.update s.tasks i (more ++ rest) j := by
      rcases owning.listed ref before with listed | ⟨j, pending⟩
      · refine (Section.run_lists c ok listed).imp_right fun leads => ⟨i, ?_⟩
        rw [Function.update_self]
        exact List.mem_append_left _ leads
      · have here : j = i := by
          by_contra apart
          rw [sequential.others_idle head apart] at pending
          cases pending
        subst here
        rw [head] at pending
        rcases List.mem_cons.mp pending with rfl | later
        · refine absurd ?_ owns
          change (wg.peers ref).Blank
          rw [(Section.run_does c ok).2.self]
          exact PeerState.clear_blank _
        · refine .inr ⟨j, ?_⟩
          rw [Function.update_self]
          exact List.mem_append_right _ later
    rcases Section.run_keeps c ok with keeps | ⟨p, addr, r, peer, rfl, _, _, _, q, _, _, _, becomes⟩ |
      ⟨p, addr, selfId, peerId, hs, peer, rfl, h, q, _, pending, _, becomes⟩
    · exact owned fun blank => owns ((keeps ref).blank blank)
    · by_cases here : ref = peer
      · subst here
        obtain ⟨pk, found⟩ := (owning.accepting i p addr r ref (head ▸ List.mem_cons_self)).2
        exact .inl ⟨pk, by rwa [becomes.pubkeyMap]⟩
      · exact owned fun blank => owns ((PeerState.Keeps.of_calm (becomes.others ref here)).blank blank)
    · refine owned fun blank => owns ?_
      have apart : ref ≠ peer := by
        rintro rfl
        cases blank.1.symm.trans pending
      exact (PeerState.Keeps.of_calm (becomes.others ref apart)).blank blank

theorem step (owning : s.Owning c) (complete : Complete c s l next) : next.Owning c := by
  obtain ⟨step, alone, fresh, unlocked⟩ := complete
  cases step with
  | start idle enabled ok => exact owning.started ⟨.start idle enabled ok, alone, fresh, unlocked⟩ enabled ok
  | proceed head free ok => exact owning.proceeded ⟨.proceed head free ok, alone, fresh, unlocked⟩ head ok

end Owning

end Program

/-- The id is that of the pending handshake or of exactly one session. -/
def PeerState.Owns (p : PeerState HS) (id : WgId) : Prop :=
  (∃ h, p.handshake = some h ∧ h.selfId = id) ∨ (p.transports.val.filter fun t => t.selfId = id).length = 1

theorem PeerState.owns_iff {p : PeerState HS} (once : p.ownedIds.Nodup) (id : WgId) :
    p.Owns id ↔ id ∈ p.ownedIds := by
  rw [ownedIds, List.mem_append]
  constructor
  · rintro (⟨h, pending, rfl⟩ | one)
    · exact .inl (by simp [handshakeIds, pending])
    · obtain ⟨t, found⟩ := List.exists_mem_of_length_pos (one ▸ Nat.one_pos)
      obtain ⟨member, same⟩ := List.mem_filter.mp found
      exact .inr (List.mem_map.mpr ⟨t, member, by simpa using same⟩)
  · rintro (pending | session)
    · exact .inl (by simpa [handshakeIds] using pending)
    · refine .inr ?_
      have counted := List.count_eq_one_of_mem (List.nodup_append.mp once).2.1 session
      rw [List.count, List.countP_map, List.countP_eq_length_filter] at counted
      rw [← counted]
      congr 1
      refine List.filter_congr fun t _ => Bool.eq_iff_iff.mpr ?_
      simp [Subtype.ext_iff]

namespace Program

/-- While operations run one at a time and generate new ids, the id map leads, between two of them, from an
id to a peer exactly when the peer is listed and the id is that of its pending handshake or of exactly one
of its sessions; so whatever the map promises is found. No removal is left for later. -/
theorem id_map_exact {info : WgInfo} {secret : U8Array 32} {mtu : BitVec 32} {now : Instant} {s : Program HS}
    (run : Transition.Run (Complete c) (start info secret mtu now) labels s) (idle : ∀ i, s.tasks i = []) :
    (∀ id ref, (s.wg.idMap.get id = some ref ↔ s.wg.Listed ref ∧ (s.wg.peers ref).Owns id) ∧
      (s.wg.idMap.get id = some ref → (∃ h, (s.wg.peers ref).handshake = some h ∧ h.selfId = id) ∨
        ∃ t, (s.wg.peers ref).findTransportById id = some t)) ∧
    (∀ ref, (s.wg.peers ref).ownedIds.Nodup) ∧ s.wg.deferred = [] := by
  have owning : s.Owning c :=
    run.invariant (Owning c) (fun _ _ _ owning step => owning.step step) (start_owning c info secret mtu now)
  refine ⟨?_, owning.exact.once, owning.atOnce⟩
  intro id ref
  have entry : s.wg.idMap.get id = some ref ↔ id ∈ (s.wg.peers ref).ownedIds := owning.owner_iff
  have owns := PeerState.owns_iff (owning.exact.once ref) id
  refine ⟨⟨fun found => ⟨?_, owns.mpr (entry.mp found)⟩, fun own => entry.mpr (owns.mp own.2)⟩, fun found => ?_⟩
  · exact owning.listed_of_referenced idle (.inl (.inr (.inl ⟨id, found⟩)))
  · refine (owns.mpr (entry.mp found)).imp_right fun one => ?_
    obtain ⟨t, member⟩ := List.exists_mem_of_length_pos (one ▸ Nat.one_pos)
    obtain ⟨member, same⟩ := List.mem_filter.mp member
    exact Option.isSome_iff_exists.mp (List.find?_isSome.mpr ⟨t, member, same⟩)

def offersNew (s : Program HS) (l : Label) : Bool := decide (s.wg.idMap.get l.env.id = none)

variable {c} in
theorem oneAtATime_of_within {s next : Program HS} {l : Label} (step : Step c s l next) (within : s.Within 1)
    (inside : l.task < 1) : s.OneAtATime l := by
  intro op starts i
  rcases Nat.lt_or_ge i 1 with first | other
  · obtain rfl : i = l.task := by omega
    cases step with
    | start idle enabled ok => exact idle
    | proceed head free ok => cases starts
  · exact within i other

theorem complete_of_within {s next : Program HS} {l : Label} (step : Step c s l next) (within : s.Within 1)
    (inside : l.task < 1) (fresh : s.offersNew l = true) (unlocked : ∀ id, l.env.idMapFree id = true) :
    Complete c s l next :=
  ⟨step, oneAtATime_of_within step within inside, fun _ => of_decide_eq_true fresh, unlocked⟩

theorem idle_of_within {s : Program HS} (within : s.Within 1) (idle : s.tasks 0 = []) (i : Nat) :
    s.tasks i = [] := by
  cases i with
  | zero => exact idle
  | succ i => exact within _ (Nat.succ_le_succ (Nat.zero_le i))

theorem id_map_exact_pending :
    ∃ s : Program X25519Key, s.wg.idMap.get (zeros 4) = some 0 ∧ (s.wg.peers 0).Owns (zeros 4) := by
  have followed : ((sampleProgram.followWith Crypto.transparent offersNew 1 (sampleSetup ++ sampleInitiating)).map
      fun s => (s.tasks 0, s.wg.idMap.get (zeros 4))) = some ([], some 0) := by
    decide +kernel
  obtain ⟨s, follows, seen⟩ := Option.map_eq_some_iff.mp followed
  simp only [Prod.mk.injEq] at seen
  obtain ⟨ended, entry⟩ := seen
  obtain ⟨run, within⟩ := run_of_followWith Crypto.transparent start_within follows
  have unlocked : ∀ l ∈ sampleSetup ++ sampleInitiating, ∀ id, l.env.idMapFree id = true := by
    simp [sampleSetup, sampleInitiating, starts, proceeds, sampleEnv]
  obtain ⟨exact, _⟩ := id_map_exact Crypto.transparent (run.mono_of (fun l => ∀ id, l.env.idMapFree id = true)
    (fun _ _ _ free step => complete_of_within _ step.1 step.2.1.1 step.2.1.2 step.2.2 free) unlocked)
    (idle_of_within within ended)
  exact ⟨s, entry, ((exact (zeros 4) 0).1.mp entry).2⟩

end Program

end Titun
