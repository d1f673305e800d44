import Titun.Evolution

/-! What one step of the daemon does to the peers and to the routes, for every operation. -/
namespace Titun

open PeerState (Evolves)

namespace WgState

variable {HS : Type} (c : Crypto HS)

/-- Every peer evolves, one of them with new ids, and new peers own nothing. -/
structure Advances (drawn : List WgId) (wg next : WgState HS) : Prop where
  nextPeer : wg.nextPeer ≤ next.nextPeer
  peers : ∃ peer0, ∀ ref,
    (wg.peers ref).Evolves (if ref = peer0 then drawn else []) (next.peers ref) ∨
      wg.nextPeer ≤ ref ∧ (next.peers ref).ownedIds = []

theorem Touches.advances {wg next : WgState HS} (touches : Touches peer0 drawn wg next) :
    Advances drawn wg next :=
  ⟨touches.routing.nextPeer.ge, peer0, fun ref => .inl (touches.peers ref)⟩

namespace Advances

variable {wg middle next : WgState HS}

theorem refl (wg : WgState HS) : Advances [] wg wg :=
  ⟨le_rfl, 0, fun ref => .inl (by rw [ite_self]; exact .refl (wg.peers ref))⟩

theorem of_evolves (nextPeer : next.nextPeer = wg.nextPeer)
    (evolves : ∀ ref, (wg.peers ref).Evolves [] (next.peers ref)) : Advances [] wg next :=
  ⟨nextPeer.ge, 0, fun ref => .inl (by rw [ite_self]; exact evolves ref)⟩

theorem trans (first : Advances [] wg middle) (second : Advances [] middle next) :
    Advances [] wg next := by
  obtain ⟨_, older⟩ := first.peers
  obtain ⟨_, newer⟩ := second.peers
  refine ⟨first.nextPeer.trans second.nextPeer, 0, fun ref => ?_⟩
  have later := newer ref
  have earlier := older ref
  simp only [ite_self] at later earlier ⊢
  rcases later with evolves | ⟨isNew, blank⟩
  · rcases earlier with before | ⟨isNew, blank⟩
    · exact .inl (before.trans evolves)
    · have owned := evolves.ids
      rw [blank] at owned
      exact .inr ⟨isNew, List.subperm_nil.mp owned⟩
  · exact .inr ⟨first.nextPeer.trans isNew, blank⟩

theorem weaken (advances : Advances [] wg next) (drawn : List WgId) : Advances drawn wg next := by
  obtain ⟨peer0, peers⟩ := advances.peers
  refine ⟨advances.nextPeer, peer0, fun ref => (peers ref).imp_left fun evolves => ?_⟩
  rw [ite_self] at evolves
  exact evolves.weaken _

end Advances

theorem setKey_touches (wg : WgState HS) (env : Env) (order : List X25519Pubkey) (key : X25519Key) :
    Touches 0 [] wg (wg.setKey env order key) := by
  have cleared (refs : List PeerRef) (wg : WgState HS) :
      Touches 0 [] wg (refs.foldl (fun wg ref => wg.clearPeer env ref) wg) := by
    induction refs generalizing wg with
    | nil => exact .refl wg
    | cons ref refs ih =>
      obtain ⟨routing, peers⟩ := clearPeer_touches wg env ref
      refine (ih (wg.clearPeer env ref)).precededBy ⟨routing, fun other => ?_⟩
      simpa using peers other
  exact (cleared _ wg).trans (.of_eq rfl rfl rfl rfl)

theorem setPeerInfo_evolves (env : Env) (p : PeerState HS) (command : SetPeerCommand) :
    p.Evolves [] (setPeerInfo env p command).2 := by
  have psk : p.Evolves [] (setPsk p command.presharedKey).2 := by
    unfold setPsk
    split_ifs
    · exact .cleared rfl rfl rfl rfl
    · exact .refl p
  have endpoint (q : PeerState HS) (e : Option SocketAddr) : q.Evolves [] (pinEndpoint q e) := by
    cases e
    · exact .refl q
    · exact .of_eq rfl rfl rfl rfl
  have keepalive (q : PeerState HS) (k : Option (BitVec 16)) :
      q.Evolves [] (setKeepalive q env.now k) := by
    cases k with
    | none => exact .refl q
    | some interval =>
      simp only [setKeepalive]
      split_ifs
      · exact .of_eq rfl rfl rfl rfl
      · exact .of_eq rfl rfl rfl rfl
      · exact .refl q
  exact (psk.trans (endpoint _ _)).trans (keepalive _ _)

theorem dropDisplaced_evolves {peers next : PeerRef → PeerState HS}
    {displaced : List (PeerRef × AllowedIp)} (ok : dropDisplaced peer0 peers displaced = .ok next)
    (ref : PeerRef) : (peers ref).Evolves [] (next ref) := by
  induction displaced generalizing peers with
  | nil =>
    obtain rfl := Except.ok.inj ok
    exact .refl _
  | cons head rest ih =>
    obtain ⟨old, ip⟩ := head
    simp only [dropDisplaced] at ok
    by_cases own : old = peer0
    · rw [if_pos own] at ok
      cases ok
    rw [if_neg own] at ok
    obtain ⟨_, _, ok⟩ := bind_eq_ok.mp ok
    have later := ih ok
    by_cases here : ref = old
    · subst here
      rw [Function.update_self] at later
      have first : (peers ref).Evolves [] ((peers ref).withAllowedIps
          ((peers ref).info.allowedIps.erase ip)) := .of_eq rfl rfl rfl rfl
      exact first.trans later
    · rwa [Function.update_of_ne here] at later

theorem addPeer_advances (wg : WgState HS) (env : Env) (pk : X25519Pubkey) :
    Advances [] wg (wg.addPeer env pk).2 := by
  unfold addPeer
  split_ifs
  · exact .refl wg
  · refine ⟨Nat.le_succ _, 0, fun ref => ?_⟩
    by_cases here : ref = wg.nextPeer
    · subst here
      refine .inr ⟨le_rfl, ?_⟩
      simp [PeerState.ownedIds, PeerState.handshakeIds, PeerState.new, ArrayVec.empty]
    · simpa [here] using Or.inl (Evolves.refl (wg.peers ref))

theorem configure_advances {wg next : WgState HS} (ok : wg.configure env peer0 command = .ok next) :
    Advances [] wg next := by
  simp only [configure] at ok
  obtain ⟨⟨displaced, rt, allowedIps⟩, _, ok⟩ := bind_eq_ok.mp ok
  obtain ⟨peers, dropped, ok⟩ := bind_eq_ok.mp ok
  obtain rfl := Except.ok.inj ok
  have info := setPeerInfo_evolves env (wg.peers peer0) command
  obtain ⟨idMap, deferred, guards⟩ :=
    dropGuards_eq (wg.setPeerState peer0 (setPeerInfo env (wg.peers peer0) command).2) env
      (setPeerInfo env (wg.peers peer0) command).1
  rw [guards] at dropped ⊢
  refine .of_evolves rfl fun ref => Evolves.trans ?_ (dropDisplaced_evolves dropped ref)
  by_cases here : ref = peer0
  · subst here
    simp only [setPeerState, Function.update_self]
    exact info.trans (.of_eq rfl rfl rfl rfl)
  · simpa [setPeerState, here] using Evolves.refl (wg.peers ref)

theorem setPeer_advances {wg next : WgState HS} (ok : wg.setPeer env command = .ok (result, next)) :
    Advances [] wg next := by
  simp only [setPeer] at ok
  cases found : wg.findPeerByPubkey command.publicKey with
  | none =>
    rw [found] at ok
    obtain ⟨_, rfl⟩ := Prod.mk.inj (Except.ok.inj ok)
    exact .refl wg
  | some peer0 =>
    simp only [found] at ok
    obtain ⟨_, configured, ok⟩ := bind_eq_ok.mp ok
    obtain ⟨_, rfl⟩ := Prod.mk.inj (Except.ok.inj ok)
    exact configure_advances configured

theorem detach_advances {wg next : WgState HS} (ok : wg.detach env ref = .ok next) :
    Advances [] wg next := by
  obtain ⟨rt, _, ok⟩ := bind_eq_ok.mp ok
  obtain rfl := Except.ok.inj ok
  have cleared := clearPeer_touches wg env ref
  refine .of_evolves cleared.routing.nextPeer fun other => ?_
  simpa using cleared.peers other

theorem removePeer_advances {wg next : WgState HS} (ok : wg.removePeer env pk = .ok (removed, next)) :
    Advances [] wg next := by
  simp only [removePeer] at ok
  cases found : wg.pubkeyMap.get pk with
  | none =>
    rw [found] at ok
    obtain ⟨_, rfl⟩ := Prod.mk.inj (Except.ok.inj ok)
    exact .refl wg
  | some ref =>
    simp only [found] at ok
    obtain ⟨_, detached, ok⟩ := bind_eq_ok.mp ok
    obtain ⟨_, rfl⟩ := Prod.mk.inj (Except.ok.inj ok)
    obtain ⟨nextPeer, peers⟩ := detach_advances detached
    exact ⟨nextPeer, peers⟩

theorem removeAllPeers_advances {wg next : WgState HS} (env : Env) {order : List X25519Pubkey}
    (ok : wg.removeAllPeers env order = .ok next) : Advances [] wg next := by
  induction order generalizing wg with
  | nil => exact Except.ok.inj ok ▸ .refl wg
  | cons pk order ih =>
    simp only [removeAllPeers] at ok
    obtain ⟨⟨_, middle⟩, removed, ok⟩ := bind_eq_ok.mp ok
    exact (removePeer_advances removed).trans (ih ok)

theorem applyConfig_advances {wg next : WgState HS} {op : ConfigOp}
    (ok : wg.applyConfig env op = .ok next) : Advances [] wg next := by
  cases op with
  | addPeer pk => exact Except.ok.inj ok ▸ addPeer_advances wg env pk
  | setPeer command =>
    obtain ⟨⟨_, _⟩, set, ok⟩ := bind_eq_ok.mp ok
    exact Except.ok.inj ok ▸ setPeer_advances set
  | removePeer pk =>
    obtain ⟨⟨_, _⟩, removed, ok⟩ := bind_eq_ok.mp ok
    exact Except.ok.inj ok ▸ removePeer_advances removed
  | removeAllPeers order => exact removeAllPeers_advances env ok

end WgState

namespace Daemon

open WgState

variable {HS : Type} (c : Crypto HS)

theorem setPort_touches (wg : WgState HS) (newPort : BitVec 16) (prepared : Except String (BitVec 16)) :
    Touches 0 [] wg (wg.setPort newPort prepared).2 := by
  unfold setPort
  by_cases same : newPort = wg.info.port
  · rw [if_pos same]
    exact .refl wg
  rw [if_neg same]
  cases prepared with
  | error e => exact .refl wg
  | ok bound => cases channel : wg.socketChannel <;> exact .of_eq rfl rfl rfl rfl

theorem setFwmark_touches (wg : WgState HS) (newFwmark : BitVec 32) (marked : Except String Unit) :
    Touches 0 [] wg (wg.setFwmark newFwmark marked).2 := by
  unfold setFwmark
  split_ifs
  · exact .refl wg
  cases marked with
  | error e => exact .refl wg
  | ok _ => exact .of_eq rfl rfl rfl rfl

theorem Step.touches {s next : Daemon HS} {l : Label} (step : Step c s l next)
    (notConfig : ∀ op, l.op ≠ .config op) :
    ∃ peer0, Touches peer0 l.drawn.toList s.wg next.wg := by
  obtain ⟨op, env, outputs, drawn⟩ := l
  obtain ⟨_, performed, draws, _⟩ := step
  simp only [] at performed draws notConfig ⊢
  have draws (draw : DrawsId c s.wg env op) : drawn.toList = [env.id] := by rw [draws draw]; rfl
  have calm {next : Daemon HS} (touches : Touches 0 [] s.wg next.wg) :
      ∃ peer0, Touches peer0 drawn.toList s.wg next.wg := ⟨0, touches.weaken _⟩
  cases op with
  | config op => exact absurd rfl (notConfig op)
  | setKey order key =>
    obtain ⟨rfl, _⟩ := Prod.mk.inj (Except.ok.inj performed)
    exact calm (setKey_touches s.wg env _ key)
  | setPort newPort prepared =>
    obtain ⟨rfl, _⟩ := Prod.mk.inj (Except.ok.inj performed)
    exact calm (setPort_touches s.wg newPort prepared)
  | setFwmark newFwmark marked =>
    obtain ⟨rfl, _⟩ := Prod.mk.inj (Except.ok.inj performed)
    exact calm (setFwmark_touches s.wg newFwmark marked)
  | datagram bytes addr =>
    obtain ⟨⟨_, _⟩, ok, performed⟩ := bind_eq_ok.mp performed
    obtain ⟨rfl, _⟩ := Prod.mk.inj (Except.ok.inj performed)
    exact udpProcessing_touches c ok draws
  | packet bytes =>
    obtain ⟨⟨_, _, _⟩, ok, performed⟩ := bind_eq_ok.mp performed
    obtain ⟨rfl, _⟩ := Prod.mk.inj (Except.ok.inj performed)
    obtain ⟨peer0, touches⟩ := tunPacketProcessing_touches c ok
    exact ⟨peer0, touches.weaken _⟩
  | timer peer kind =>
    obtain ⟨rfl, _⟩ := Prod.mk.inj (Except.ok.inj performed)
    exact ⟨peer, (runTimer_touches c s.wg env peer kind).weaken _⟩
  | resend loop =>
    obtain ⟨⟨_, _⟩, ok, performed⟩ := bind_eq_ok.mp performed
    obtain ⟨rfl, _⟩ := Prod.mk.inj (Except.ok.inj performed)
    exact ⟨loop.peer, resendIteration_touches c ok draws⟩
  | cancelLoop loop =>
    obtain ⟨rfl, _⟩ := Prod.mk.inj (Except.ok.inj performed)
    exact calm (.of_eq rfl rfl rfl rfl)
  | session peer i task =>
    obtain ⟨rfl, _⟩ := Prod.mk.inj (Except.ok.inj performed)
    exact ⟨peer, (modifySession_touches s.wg peer i task).weaken _⟩
  | removeDeferred id =>
    obtain ⟨rfl, _⟩ := Prod.mk.inj (Except.ok.inj performed)
    exact calm (.of_eq rfl rfl rfl rfl)
  | startRx =>
    obtain ⟨rfl, _⟩ := Prod.mk.inj (Except.ok.inj performed)
    exact calm (.of_eq rfl rfl rfl rfl)
  | takeSocket =>
    simp only [perform] at performed
    split at performed <;> obtain ⟨rfl, _⟩ := Prod.mk.inj (Except.ok.inj performed) <;>
      exact calm (.of_eq rfl rfl rfl rfl)
  | updateCookieSecret secret =>
    obtain ⟨rfl, _⟩ := Prod.mk.inj (Except.ok.inj performed)
    exact calm (.of_eq rfl rfl rfl rfl)
  | updateMtu mtu =>
    obtain ⟨rfl, _⟩ := Prod.mk.inj (Except.ok.inj performed)
    exact calm (.of_eq rfl rfl rfl rfl)

theorem Step.of_config {wg next : WgState HS} {op : ConfigOp} (valid : op.Valid)
    (ok : wg.applyConfig env op = .ok next) (buffer : Bytes) :
    Step c ⟨wg, buffer⟩ ⟨.config op, env, [], none⟩ ⟨next, buffer⟩ where
  enabled := valid
  performed := by simp [perform, ok]
  draws := False.elim
  idle _ := rfl

theorem Step.config {s next : Daemon HS} {l : Label} (step : Step c s l next)
    (isConfig : l.op = .config op) : op.Valid ∧ s.wg.applyConfig l.env op = .ok next.wg := by
  obtain ⟨enabled, performed, _⟩ := step
  rw [isConfig] at enabled performed
  obtain ⟨_, ok, performed⟩ := bind_eq_ok.mp performed
  obtain ⟨rfl, _⟩ := Prod.mk.inj (Except.ok.inj performed)
  exact ⟨enabled, ok⟩

theorem Step.advances {s next : Daemon HS} {l : Label} (step : Step c s l next) :
    Advances l.drawn.toList s.wg next.wg := by
  by_cases config : ∃ op, l.op = .config op
  · obtain ⟨op, isConfig⟩ := config
    exact (applyConfig_advances (step.config c isConfig).2).weaken _
  · obtain ⟨_, touches⟩ := step.touches c fun op isConfig => config ⟨op, isConfig⟩
    exact touches.advances

theorem Step.refines {s next : Daemon HS} {l : Label} (step : Step c s l next)
    (refines : ∃ o, Refines s.wg o) : ∃ o, Refines next.wg o := by
  obtain ⟨o, refines⟩ := refines
  by_cases config : ∃ op, l.op = .config op
  · obtain ⟨op, isConfig⟩ := config
    obtain ⟨valid, ok⟩ := step.config c isConfig
    obtain ⟨next', ok', nextRefines⟩ := refines.applyConfig l.env valid
    obtain rfl := Except.ok.inj (ok'.symm.trans ok)
    exact ⟨_, nextRefines⟩
  · obtain ⟨_, touches⟩ := step.touches c fun op isConfig => config ⟨op, isConfig⟩
    exact ⟨o, refines.frame touches.routing⟩

theorem run_refines {info : WgInfo} {secret : U8Array 32} {mtu : BitVec 32} {now : Instant}
    {s : Daemon HS} (run : Transition.Run (Step c) (start info secret mtu now) labels s) :
    ∃ o, Refines s.wg o :=
  run.invariant (fun s => ∃ o, Refines s.wg o) (fun _ _ _ refines step => step.refines c refines)
    ⟨_, new_refines info secret mtu now⟩

end Daemon

end Titun
