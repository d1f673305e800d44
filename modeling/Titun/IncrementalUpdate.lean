import Titun.IpcServer

/-! `set_peer` as an incremental update: what a command does not mention stays. -/
namespace Titun

namespace WgState

variable {HS : Type}

/-- A command gives a peer a pre-shared key that it did not have. -/
def ChangesPsk (p : PeerState HS) (command : SetPeerCommand) : Prop :=
  command.presharedKey ≠ none ∧ command.presharedKey ≠ p.info.psk

/-- A command changes what it mentions and nothing else. -/
structure Incremental (wg next : WgState HS) (peer0 : PeerRef) (command : SetPeerCommand) : Prop where
  psk : command.presharedKey = none → (next.peers peer0).info.psk = (wg.peers peer0).info.psk
  endpoint : command.endpoint = none →
    (next.peers peer0).info.endpoint = (wg.peers peer0).info.endpoint ∧
    (next.peers peer0).info.roaming = (wg.peers peer0).info.roaming
  keepalive : command.keepalive = none →
    (next.peers peer0).info.keepalive = (wg.peers peer0).info.keepalive
  sessions : ¬ ChangesPsk (wg.peers peer0) command →
    (next.peers peer0).transports = (wg.peers peer0).transports ∧
    (next.peers peer0).handshake = (wg.peers peer0).handshake ∧
    (next.peers peer0).handshakeResendScope = (wg.peers peer0).handshakeResendScope ∧
    (next.peers peer0).queue = (wg.peers peer0).queue
  allowedIps : command.replaceAllowedIps = false →
    (wg.peers peer0).info.allowedIps ⊆ (next.peers peer0).info.allowedIps
  others : ∀ pk ref, wg.pubkeyMap.get pk = some ref → ref ≠ peer0 →
    next.peers ref = (wg.peers ref).withAllowedIps
      ((wg.peers ref).info.allowedIps \ command.allowedIps.image maskedIp)

theorem setPsk_same {p : PeerState HS} {presharedKey : Option (U8Array 32)}
    (same : p.info.psk = presharedKey) : setPsk p presharedKey = ([], p) := by
  simp [setPsk, same]

theorem Configures.incremental {wg next : WgState HS} {o : Ownership} (refines : Refines wg o)
    {command : SetPeerCommand} (found : wg.pubkeyMap.get command.publicKey = some peer0)
    (configures : Configures wg env peer0 command displaced next)
    (mentioned : command.presharedKey ≠ none ∨ (wg.peers peer0).info.psk = none) :
    Incremental wg next peer0 command := by
  obtain ⟨_, _, _, _, _, info, endpoint, keepalive⟩ := setPeerInfo_eq env (wg.peers peer0) command
  have own := configures.own
  rw [info] at own
  have same : ¬ ChangesPsk (wg.peers peer0) command →
      (wg.peers peer0).info.psk = command.presharedKey := by
    intro unchanged
    by_cases none_ : command.presharedKey = none
    · rw [none_]
      exact mentioned.resolve_left fun some_ => some_ none_
    · by_contra other
      exact unchanged ⟨none_, Ne.symm other⟩
  refine
    { psk := fun unmentioned => ?_
      endpoint := fun unmentioned => ?_
      keepalive := fun unmentioned => ?_
      sessions := fun unchanged => ?_
      allowedIps := fun append => ?_
      others := fun pk ref isKey other => ?_ }
  · rw [own]
    exact unmentioned.trans (mentioned.resolve_left fun some_ => some_ unmentioned).symm
  · rw [own]
    exact endpoint unmentioned
  · rw [own]
    exact keepalive unmentioned
  · rw [own, setPsk_same (same unchanged)]
    exact ⟨rfl, rfl, rfl, rfl⟩
  · rw [own, append]
    exact Finset.subset_union_left
  · rw [configures.others ref other]
    congr 1
    ext ip
    rw [Finset.mem_filter, Finset.mem_sdiff]
    refine and_congr_right fun owned => not_congr ?_
    have owner := (refines.allowed pk ref isKey ip).mp owned
    have unowned : ip ∉ (wg.peers peer0).info.allowedIps := by
      intro mine
      rw [refines.allowed _ peer0 found, owner] at mine
      obtain rfl := Option.some.inj mine
      exact other (Option.some.inj (isKey.symm.trans found))
    refine (configures.taken ref ip).trans ⟨And.left, fun isNew => ⟨isNew, unowned, ?_⟩⟩
    exact refines.route_of_owner isKey owner

theorem Configures.mentioned {wg next : WgState HS} {command : SetPeerCommand}
    (configures : Configures wg env peer0 command displaced next)
    (incremental : Incremental wg next peer0 command) :
    command.presharedKey ≠ none ∨ (wg.peers peer0).info.psk = none := by
  by_contra neither
  obtain ⟨unmentioned, hasPsk⟩ := not_or.mp neither
  have unmentioned := not_not.mp unmentioned
  have kept := incremental.psk unmentioned
  obtain ⟨_, _, _, _, _, info, _⟩ := setPeerInfo_eq env (wg.peers peer0) command
  rw [configures.own, info] at kept
  exact hasPsk (kept.symm.trans unmentioned)

/-- A request of the configuration protocol for an existing peer does what `set_peer` does. -/
theorem processPeer_eq {wg next : WgState HS} {p : WgSetPeerCommand} (keeps : p.remove = false)
    (found : wg.pubkeyMap.get p.publicKey = some peer0)
    (set : wg.setPeer env p.toSetPeer = .ok (.ok (), next)) : wg.processPeer env p = .ok next := by
  have exists_ : wg.peerExists p.publicKey = true := by
    simp only [peerExists, findPeerByPubkey]
    exact Option.isSome_iff_exists.mpr ⟨peer0, found⟩
  simp [processPeer, keeps, ensurePeer, exists_, set, Except.toOption]

/-- `set_peer` is an incremental update exactly where the command gives a pre-shared key or the
peer has none; so is a request of the configuration protocol. -/
theorem set_peer_incremental_iff {wg : WgState HS} {o : Ownership} (refines : Refines wg o) (env : Env)
    {command : SetPeerCommand} (valid : ∀ ip ∈ command.allowedIps, ValidIp ip)
    (found : wg.pubkeyMap.get command.publicKey = some peer0) :
    ∃ next, wg.setPeer env command = .ok (.ok (), next) ∧
      (∀ p : WgSetPeerCommand, p.remove = false → p.toSetPeer = command →
        wg.processPeer env p = .ok next) ∧
      (Incremental wg next peer0 command ↔
        command.presharedKey ≠ none ∨ (wg.peers peer0).info.psk = none) := by
  obtain ⟨displaced, next, ok, configures⟩ := refines.configure env valid found
  have set : wg.setPeer env command = .ok (.ok (), next) := by
    simp [setPeer, findPeerByPubkey, found, ok]
  refine ⟨next, set, fun p keeps same => ?_, configures.mentioned,
    configures.incremental refines found⟩
  subst same
  exact processPeer_eq keeps found set

def samplePskState : WgState X25519Key :=
  let wg := ((WgState.new ⟨zeros 32, 0, 0⟩ (zeros 32) 1280 0 : WgState X25519Key).addPeer sampleEnv
    (samplePubkey 1)).2
  let session := Transport.newFromHs Crypto.transparent 0 (zeros 4) (zeros 4) (zeros 32)
  let peer := ((wg.peers 0).pushTransport 0 session).2
  wg.setPeerState 0 { peer with info := { peer.info with psk := some (zeros 32) } }

theorem samplePskState_refines : ∃ o, Refines samplePskState o :=
  ⟨_, ((new_refines ⟨zeros 32, 0, 0⟩ (zeros 32) 1280 0).addPeer sampleEnv (samplePubkey 1)).frame
    (.setPeerState rfl rfl)⟩

def sampleRekey : SetPeerCommand :=
  ⟨samplePubkey 1, some ⟨List.replicate 32 1, rfl⟩, none, none, false, {(.v4 0x0a000000, 8)}⟩

theorem set_peer_incremental_iff_rekey :
    ∃ next, samplePskState.setPeer sampleEnv sampleRekey = .ok (.ok (), next) ∧
      Incremental samplePskState next 0 sampleRekey := by
  obtain ⟨_, refines⟩ := samplePskState_refines
  have valid : ∀ ip ∈ sampleRekey.allowedIps, ValidIp ip := by
    simp [sampleRekey, ValidIp, IpAddr.width]
  have found : samplePskState.pubkeyMap.get sampleRekey.publicKey = some 0 := by decide +kernel
  obtain ⟨next, ok, _, iff⟩ := set_peer_incremental_iff refines sampleEnv valid found
  exact ⟨next, ok, iff.mpr (.inl (by simp [sampleRekey]))⟩

def sampleRequest : WgSetPeerCommand :=
  ⟨samplePubkey 1, false, none, none, some 25, false, ∅⟩

/-- It takes away the pre-shared key, and with it the session. -/
theorem unmentioned_psk_lost :
    ∃ next, samplePskState.processPeer sampleEnv sampleRequest = .ok next ∧
      ¬ Incremental samplePskState next 0 sampleRequest.toSetPeer ∧
      (samplePskState.peers 0).info.psk = some (zeros 32) ∧ (next.peers 0).info.psk = none ∧
      (samplePskState.peers 0).transports.val.length = 1 ∧ (next.peers 0).transports.val = [] := by
  obtain ⟨_, refines⟩ := samplePskState_refines
  have found : samplePskState.pubkeyMap.get sampleRequest.publicKey = some 0 := by decide +kernel
  have valid : ∀ ip ∈ sampleRequest.toSetPeer.allowedIps, ValidIp ip := by
    simp [sampleRequest, WgSetPeerCommand.toSetPeer]
  obtain ⟨displaced, next, ok, configures⟩ := refines.configure sampleEnv valid found
  have set : samplePskState.setPeer sampleEnv sampleRequest.toSetPeer = .ok (.ok (), next) := by
    have same : samplePskState.findPeerByPubkey sampleRequest.toSetPeer.publicKey = some 0 := found
    simp [setPeer, same, ok]
  have hasPsk : (samplePskState.peers 0).info.psk = some (zeros 32) := by decide +kernel
  obtain ⟨_, _, _, _, _, info, _⟩ :=
    setPeerInfo_eq sampleEnv (samplePskState.peers 0) sampleRequest.toSetPeer
  refine ⟨next, processPeer_eq rfl found set, fun incremental => ?_, hasPsk, ?_, by decide +kernel, ?_⟩
  · rcases configures.mentioned incremental with mentioned | noPsk
    · exact mentioned rfl
    · rw [hasPsk] at noPsk
      cases noPsk
  · rw [configures.own, info]
    rfl
  · rw [configures.own, info]
    simp only [PeerState.withAllowedIps, setPsk, hasPsk]
    rfl

end WgState

end Titun
