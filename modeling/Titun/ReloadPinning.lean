import Titun.ReloadConvergence

/-! Endpoints after a fresh start and after a reload: those that are configured are pinned, the
others roam. -/
namespace Titun

namespace WgState

variable {HS : Type}

/-- A peer roams if and only if no endpoint is configured, and has the one that is. -/
def PinnedAs (wg : WgState HS) (p : PeerConfig) : Prop :=
  ∃ ref, wg.pubkeyMap.get p.publicKey = some ref ∧ (wg.peers ref).info.roaming = p.endpoint.isNone ∧
    ∀ e, p.endpoint = some e →
      (wg.peers ref).info.endpoint.map unmapIpv4FromIpv6 = some (unmapIpv4FromIpv6 (mapIpv4ToIpv6 e))

theorem installPort_spec (wg : WgState HS) (bound : BitVec 16) (listenPort : Option (BitVec 16)) :
    ∃ next, wg.installPort ⟨.ok bound, .ok ()⟩ listenPort = (.ok (), next) ∧ SameRouting wg next := by
  cases listenPort with
  | none => exact ⟨wg, rfl, .refl wg⟩
  | some port =>
    refine ⟨_, Prod.ext ?_ rfl, (setPort_spec wg port bound).1⟩
    change (wg.setPort port (.ok bound)).1 = .ok ()
    by_cases same : port = wg.info.port
    · rw [setPort, if_pos same]
    · rw [Handover.setPort_eq wg port bound same]

theorem installFwmark_spec (wg : WgState HS) (bound : BitVec 16) (fwmark : Option (BitVec 32)) :
    ∃ next, wg.installFwmark ⟨.ok bound, .ok ()⟩ fwmark = (.ok (), next) ∧ SameRouting wg next := by
  cases fwmark with
  | none => exact ⟨wg, rfl, .refl wg⟩
  | some fwmark =>
    refine ⟨_, Prod.ext ?_ rfl, (setFwmark_spec wg fwmark).1⟩
    change (wg.setFwmark fwmark (.ok ())).1 = .ok ()
    by_cases same : wg.info.fwmark = fwmark
    · rw [setFwmark, if_pos same]
    · rw [setFwmark, if_neg same]

theorem Refines.install_pins {wg : WgState HS} (refines : Refines wg .empty) (env : Env)
    (order : List X25519Pubkey) (bound : BitVec 16) {config : Config} (accepted : config.Accepted) :
    ∃ started, wg.install env order ⟨.ok bound, .ok ()⟩ config = .ok (.ok (), started) ∧
      ∀ p ∈ config.peers, PinnedAs started p := by
  have keyed := (setKey_spec wg env order config.interface.privateKey).1
  obtain ⟨withPort, isWithPort, ported⟩ :=
    installPort_spec (wg.setKey env order config.interface.privateKey) bound config.interface.listenPort
  obtain ⟨marked, isMarked, marking⟩ := installFwmark_spec withPort bound config.interface.fwmark
  have ready : Refines marked .empty := refines.frame ((keyed.trans ported).trans marking)
  have valid : ∀ command ∈ config.peers.map PeerConfig.installation, ∀ ip ∈ command.allowedIps, ValidIp ip := by
    intro command isCommand
    obtain ⟨p, isIn, rfl⟩ := List.mem_map.mp isCommand
    exact accepted.valid p isIn
  have distinct : (config.peers.map PeerConfig.installation).Pairwise fun a b => a.publicKey ≠ b.publicKey :=
    List.pairwise_map.mpr (List.pairwise_map.mp accepted.distinct)
  obtain ⟨started, ok, adds⟩ := ready.addPeers_spec env valid distinct (by simp [Ownership.empty])
  refine ⟨started, ?_, fun p isIn => ?_⟩
  · simp only [install, isWithPort, isMarked, ok]
  · obtain ⟨ref, isKey, ips, peer⟩ := adds.added p.installation (List.mem_map_of_mem isIn)
    refine ⟨ref, isKey, ?_, fun e configured => ?_⟩
    · simp [peer, PeerState.withAllowedIps, setPeerInfo_info, PeerConfig.installation, PeerState.new]
    · simp [peer, PeerState.withAllowedIps, setPeerInfo_info, PeerConfig.installation, configured]

theorem Reloaded.pinnedAs_iff {wg middle next : WgState HS} {o : Ownership} {config : Config}
    (reloaded : Reloaded wg env o config middle next own) (isIn : p ∈ config.peers) :
    PinnedAs next p ↔ ∀ ref, wg.pubkeyMap.get p.publicKey = some ref →
      (p.endpoint = none → (wg.peers ref).info.roaming = true) ∧
      (p.endpoint ≠ none → p = shownAs (wg.peers ref) p → (wg.peers ref).info.roaming = false) := by
  obtain ⟨ref, shown⟩ := reloaded.shown isIn
  have flag : PinnedAs next p ↔ (next.peers ref).info.roaming = p.endpoint.isNone := by
    constructor
    · rintro ⟨ref', isKey, roaming, _⟩
      obtain rfl := Option.some.inj (shown.isKey.symm.trans isKey)
      exact roaming
    · intro roaming
      refine ⟨ref, shown.isKey, roaming, fun e configured => ?_⟩
      rw [shown.endpoint, endpointAfter, configured]
  rw [flag]
  cases found : wg.pubkeyMap.get p.publicKey with
  | none =>
    obtain ⟨ref', isKey, ips, peer⟩ := reloaded.added p isIn found
    obtain rfl := Option.some.inj (shown.isKey.symm.trans isKey)
    simp [peer, PeerState.withAllowedIps, setPeerInfo_info, PeerConfig.addition, PeerState.new]
  | some ref' =>
    have same := reloaded.rekeys.peerInfo ref'
    simp only [Option.some.injEq, forall_eq']
    by_cases shows : p = shownAs (wg.peers ref') p
    · obtain ⟨isKey, ips, peer⟩ := reloaded.unchanged p isIn ref' found shows
      obtain rfl := Option.some.inj (shown.isKey.symm.trans isKey)
      rw [peer]
      simp only [PeerState.withAllowedIps, same]
      cases p.endpoint with
      | none => simp
      | some e =>
        constructor
        · intro flag
          exact ⟨by simp, fun _ _ => flag⟩
        · rintro ⟨_, skipped⟩
          exact skipped (by simp) shows
    · obtain ⟨isKey, ips, peer⟩ := reloaded.modified p isIn ref' found shows
      obtain rfl := Option.some.inj (shown.isKey.symm.trans isKey)
      rw [peer]
      simp only [PeerState.withAllowedIps, setPeerInfo_info, same, PeerConfig.modification, shows]
      cases p.endpoint <;> simp

/-- After a fresh start every peer is pinned as configured. After a reload every one is exactly if
those that were there roamed already where no endpoint is configured, and were pinned already where
nothing about them seemed to change. -/
theorem reload_pins_iff {wg : WgState HS} {o : Ownership} (refines : Refines wg o) (env : Env)
    (clock : SystemTime) {order : List X25519Pubkey} (all : HashMap.IterOrder wg.pubkeyMap order)
    (bound : BitVec 16) {config : Config} (accepted : config.Accepted)
    (info : WgInfo) (secret : U8Array 32) (mtu : BitVec 32) (now : Instant) :
    ∃ started next,
      (WgState.new info secret mtu now : WgState HS).install env [] ⟨.ok bound, .ok ()⟩ config =
        .ok (.ok (), started) ∧
      wg.reload env clock order ⟨.ok bound, .ok ()⟩ config = .ok (.ok (), next) ∧
      (∀ p ∈ config.peers, PinnedAs started p) ∧
      ((∀ p ∈ config.peers, PinnedAs next p) ↔
        ∀ p ∈ config.peers, ∀ ref, wg.pubkeyMap.get p.publicKey = some ref →
          (p.endpoint = none → (wg.peers ref).info.roaming = true) ∧
          (p.endpoint ≠ none → p = shownAs (wg.peers ref) p → (wg.peers ref).info.roaming = false)) := by
  obtain ⟨started, startOk, pins⟩ :=
    (new_refines info secret mtu now : Refines (WgState.new info secret mtu now : WgState HS) _).install_pins env []
      bound accepted
  obtain ⟨_, next, _, ok, reloaded, _⟩ := refines.reload_spec env clock all bound accepted
  refine ⟨started, next, startOk, ok, pins, ?_⟩
  exact forall₂_congr fun p isIn => reloaded.pinnedAs_iff isIn

theorem reload_pins_iff_sample : ∃ started next,
    (WgState.new ⟨zeros 32, 0, 0⟩ (zeros 32) 1280 0 : WgState X25519Key).install sampleEnv []
      ⟨.ok 9, .ok ()⟩ sampleConfig = .ok (.ok (), started) ∧
    sampleConfigured.reload sampleEnv 0 [samplePubkey 1] ⟨.ok 9, .ok ()⟩ sampleConfig = .ok (.ok (), next) ∧
    ∀ p ∈ sampleConfig.peers, PinnedAs next p := by
  obtain ⟨_, refines⟩ := sampleConfigured_refines
  obtain ⟨started, next, startOk, ok, _, iff⟩ := reload_pins_iff refines sampleEnv 0 sampleConfigured_order 9
    sampleConfig_accepted ⟨zeros 32, 0, 0⟩ (zeros 32) 1280 0
  refine ⟨started, next, startOk, ok, iff.mpr fun p isIn ref isKey => ?_⟩
  rw [get_sampleConfigured] at isKey
  split_ifs at isKey with here
  obtain rfl := Option.some.inj isKey
  have roams : (sampleConfigured.peers 0).info.roaming = true := by decide +kernel
  refine ⟨fun _ => roams, fun pinned => ?_⟩
  simp only [sampleConfig, List.mem_cons, List.not_mem_nil, or_false] at isIn
  rcases isIn with rfl | rfl
  · exact absurd rfl pinned
  · exact absurd here (by decide)

/-- `[2001:db8::2]:51820`. -/
def sampleLearnt : SocketAddrV6 := ⟨0x20010db8000000000000000000000002, 51820, 0, 0⟩

def sampleRoamed : WgState X25519Key :=
  let peer := sampleConfigured.peers 0
  sampleConfigured.setPeerState 0 { peer with info := { peer.info with endpoint := some sampleLearnt } }

def samplePinning : Config where
  interface := ⟨zeros 32, some 51820, none⟩
  peers := [⟨samplePubkey 1, none, some (.v6 sampleLearnt), none, ∅, none⟩]

/-- The address that was learnt is not pinned: nothing seems to change. -/
theorem reload_leaves_roaming : ∃ next,
    (sampleConfigured.peers 0).roam sampleLearnt = .ok (sampleRoamed.peers 0) ∧
    sampleRoamed.reload sampleEnv 0 [samplePubkey 1] ⟨.ok 9, .ok ()⟩ samplePinning = .ok (.ok (), next) ∧
    ¬ ∀ p ∈ samplePinning.peers, PinnedAs next p := by
  obtain ⟨_, refines⟩ := sampleConfigured_refines
  have roamed : Refines sampleRoamed _ := refines.frame (.setPeerState rfl rfl)
  have order : HashMap.IterOrder sampleRoamed.pubkeyMap [samplePubkey 1] := sampleConfigured_order
  have accepted : samplePinning.Accepted := ⟨⟨[], by decide +kernel⟩, by simp [samplePinning]⟩
  obtain ⟨_, next, _, ok, reloaded, _⟩ := roamed.reload_spec sampleEnv 0 order 9 accepted
  refine ⟨next, by decide +kernel, ok, fun pinned => ?_⟩
  have isIn : ⟨samplePubkey 1, none, some (.v6 sampleLearnt), none, ∅, none⟩ ∈ samplePinning.peers :=
    List.mem_cons_self
  have isKey : sampleRoamed.pubkeyMap.get (samplePubkey 1) = some 0 := by
    rw [show sampleRoamed.pubkeyMap = sampleConfigured.pubkeyMap from rfl, get_sampleConfigured, if_pos rfl]
  have shows : ⟨samplePubkey 1, none, some (.v6 sampleLearnt), none, ∅, none⟩ = shownAs (sampleRoamed.peers 0)
      ⟨samplePubkey 1, none, some (.v6 sampleLearnt), none, ∅, none⟩ := by decide +kernel
  obtain ⟨_, skipped⟩ := (reloaded.pinnedAs_iff isIn).mp (pinned _ isIn) 0 isKey
  have roams : (sampleRoamed.peers 0).info.roaming = true := by decide +kernel
  rw [skipped (by simp) shows] at roams
  cases roams

end WgState

end Titun
