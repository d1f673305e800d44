import Titun.ReloadOutcome

/-! A reload converges to the configuration. -/
namespace Titun

/-- No prefix is configured for two peers. -/
def Config.Disjoint (config : Config) : Prop :=
  ∀ p ∈ config.peers, ∀ q ∈ config.peers, ∀ ip, p.Lists ip → q.Lists ip → p = q

namespace WgState

variable {HS : Type}

/-- The state that a configuration describes, reached from another. -/
structure Converged (wg next : WgState HS) (config : Config) : Prop where
  privateKey : next.info.key = config.interface.privateKey
  fwmark : next.info.fwmark = config.interface.fwmark.getD 0
  peers : ∀ pk, (next.pubkeyMap.get pk).isSome ↔ pk ∈ config.keys
  peer : ∀ p ∈ config.peers, ∃ ref, next.pubkeyMap.get p.publicKey = some ref ∧
    (next.peers ref).info.publicKey = p.publicKey ∧
    (next.peers ref).info.psk = p.presharedKey ∧
    (next.peers ref).info.keepalive = p.keepalive ∧
    (next.peers ref).info.allowedIps = p.allowedIps.image maskedIp ∧
    ∀ e, p.endpoint = some e →
      (next.peers ref).info.endpoint.map unmapIpv4FromIpv6 = some (unmapIpv4FromIpv6 (mapIpv4ToIpv6 e))
  tables : next.rt.Wf
  routes : ∀ ip ref, next.rt.get ip = some ref ↔
    ∃ p ∈ config.peers, p.Lists ip ∧ next.pubkeyMap.get p.publicKey = some ref
  sessions : wg.info.key = config.interface.privateKey →
    ∀ p ∈ config.peers, ∀ ref, wg.pubkeyMap.get p.publicKey = some ref →
      (wg.peers ref).info.psk = p.presharedKey →
      next.pubkeyMap.get p.publicKey = some ref ∧ (next.peers ref).transports = (wg.peers ref).transports ∧
        (next.peers ref).handshake = (wg.peers ref).handshake

/-- A peer that reload leaves alone owns what it is configured with, and lists it as it is. -/
theorem Unchanged.lists {wg : WgState HS} {o : Ownership} (refines : Refines wg o) {p : PeerConfig}
    (same : Unchanged wg p) : p.Lists ip ↔ o.own ip = some p.publicKey := by
  obtain ⟨ref, isKey, shows⟩ := same
  obtain ⟨_, _, _, allowedIps, _⟩ := eq_shownAs.mp shows
  have owned := refines.allowed _ ref isKey
  rw [← allowedIps] at owned
  constructor
  · intro lists
    obtain ⟨original, isIn, rfl⟩ := Finset.mem_image.mp lists
    have owner := (owned original).mp isIn
    rwa [(refines.owned original _ owner).2.2]
  · intro owner
    exact Finset.mem_image.mpr ⟨ip, (owned ip).mpr owner, (refines.owned ip _ owner).2.2⟩

theorem Reloaded.owner_iff {wg middle next : WgState HS} {o : Ownership} (refines : Refines wg o)
    {config : Config} (disjoint : config.Disjoint) (reloaded : Reloaded wg env o config middle next own) :
    own ip = some pk ↔ ∃ p ∈ config.peers, p.publicKey = pk ∧ p.Lists ip := by
  by_cases listed : ∃ p ∈ config.peers, ¬ Unchanged wg p ∧ p.Lists ip
  · obtain ⟨p, isIn, changes, lists⟩ := listed
    have owner := reloaded.latest p isIn changes ip lists fun q isIn' _ lists' =>
      .inl (disjoint q isIn' p isIn ip lists' lists)
    rw [owner, Option.some.injEq]
    constructor
    · rintro rfl
      exact ⟨p, isIn, rfl, lists⟩
    · rintro ⟨q, isIn', rfl, lists'⟩
      rw [disjoint p isIn q isIn' ip lists lists']
  · have unlisted : ∀ p ∈ config.peers, ¬ Unchanged wg p → ¬ p.Lists ip := fun p isIn changes lists =>
      listed ⟨p, isIn, changes, lists⟩
    rw [reloaded.rest ip unlisted]
    constructor
    · rintro ⟨owner, p, isIn, rfl, same⟩
      exact ⟨p, isIn, rfl, (same.lists refines).mpr owner⟩
    · rintro ⟨p, isIn, rfl, lists⟩
      have same : Unchanged wg p := by
        by_contra changes
        exact unlisted p isIn changes lists
      exact ⟨(same.lists refines).mp lists, p, isIn, rfl, same⟩

/-- Whatever configuration operations and traffic came before, and wherever the prefixes were:
a reload with prefixes that are disjoint between peers succeeds and converges. -/
theorem reload_converges {wg : WgState HS} {o : Ownership} (refines : Refines wg o) (env : Env)
    (clock : SystemTime) {order : List X25519Pubkey} (all : HashMap.IterOrder wg.pubkeyMap order)
    (bound : BitVec 16) {config : Config} (accepted : config.Accepted) (disjoint : config.Disjoint) :
    ∃ next, wg.reload env clock order ⟨.ok bound, .ok ()⟩ config = .ok (.ok (), next) ∧
      Converged wg next config := by
  obtain ⟨middle, next, own, ok, reloaded, info⟩ := refines.reload_spec env clock all bound accepted
  have owners (ip : AllowedIp) (pk : X25519Pubkey) :
      own ip = some pk ↔ ∃ p ∈ config.peers, p.publicKey = pk ∧ p.Lists ip :=
    reloaded.owner_iff refines disjoint
  refine ⟨next, ok,
    { privateKey := by rw [info]
      fwmark := by rw [info]
      peers := reloaded.refines.peers
      peer := fun p isIn => ?_
      tables := reloaded.refines.wf
      routes := fun ip ref => ?_
      sessions := fun sameKey p isIn ref isKey samePsk => reloaded.sessions sameKey isIn isKey samePsk }⟩
  · obtain ⟨ref, shown⟩ := reloaded.shown isIn
    refine ⟨ref, shown.isKey, shown.publicKey, shown.psk, shown.keepalive, ?_, fun e configured => ?_⟩
    · ext ip
      rw [shown.allowedIps, owners]
      constructor
      · rintro ⟨q, isIn', same, lists⟩
        rw [← accepted.unique isIn' isIn same]
        exact lists
      · intro lists
        exact ⟨p, isIn, rfl, lists⟩
    · rw [shown.endpoint, endpointAfter, configured]
  · rw [reloaded.refines.routes, Option.bind_eq_some_iff]
    constructor
    · rintro ⟨pk, owner, isKey⟩
      obtain ⟨p, isIn, rfl, lists⟩ := (owners ip pk).mp owner
      exact ⟨p, isIn, lists, isKey⟩
    · rintro ⟨p, isIn, lists, isKey⟩
      exact ⟨p.publicKey, (owners ip _).mpr ⟨p, isIn, rfl, lists⟩, isKey⟩

def sampleConfigured : WgState X25519Key :=
  ((WgState.new ⟨zeros 32, 0, 7⟩ (zeros 32) 1280 0 : WgState X25519Key).addPeer sampleEnv (samplePubkey 1)).2

def sampleConfig : Config where
  interface := ⟨zeros 32, some 51820, none⟩
  peers :=
    [⟨samplePubkey 1, none, none, none, {(.v4 0x0a000000, 8)}, none⟩,
      ⟨samplePubkey 2, none, some (.v4 0x01020304 9), none, {(.v4 0x0b010203, 8)}, NonZeroU16.new 25⟩]

theorem sampleConfigured_refines : ∃ o, Refines sampleConfigured o :=
  ⟨_, (new_refines ⟨zeros 32, 0, 7⟩ (zeros 32) 1280 0).addPeer sampleEnv (samplePubkey 1)⟩

theorem get_sampleConfigured (k : X25519Pubkey) :
    sampleConfigured.pubkeyMap.get k = if k = samplePubkey 1 then some 0 else none := by
  have map : sampleConfigured.pubkeyMap = HashMap.insert ∅ (samplePubkey 1) 0 := by
    simp [sampleConfigured, WgState.new, WgState.addPeer]
  rw [map, HashMap.get_insert, HashMap.get_empty]

theorem sampleConfigured_order : HashMap.IterOrder sampleConfigured.pubkeyMap [samplePubkey 1] := by
  refine ⟨by decide, fun k => ?_⟩
  rw [get_sampleConfigured]
  by_cases here : k = samplePubkey 1 <;> simp [here]

theorem sampleConfig_accepted : sampleConfig.Accepted :=
  ⟨⟨[], by decide +kernel⟩, by simp [sampleConfig, ValidIp, IpAddr.width]⟩

theorem sampleConfig_disjoint : sampleConfig.Disjoint := by
  have apart : maskedIp (.v4 0x0a000000, 8) ≠ maskedIp (.v4 0x0b010203, 8) := by decide +kernel
  simp only [Config.Disjoint, sampleConfig, List.mem_cons, List.not_mem_nil, or_false]
  rintro p (rfl | rfl) q (rfl | rfl) ip lists lists'
  · rfl
  · rw [PeerConfig.Lists, Finset.image_singleton, Finset.mem_singleton] at lists lists'
    exact absurd (lists.symm.trans lists') apart
  · rw [PeerConfig.Lists, Finset.image_singleton, Finset.mem_singleton] at lists lists'
    exact absurd (lists'.symm.trans lists) apart
  · rfl

theorem reload_converges_sample :
    ∃ next, sampleConfigured.reload sampleEnv 0 [samplePubkey 1] ⟨.ok 9, .ok ()⟩ sampleConfig =
        .ok (.ok (), next) ∧ Converged sampleConfigured next sampleConfig := by
  obtain ⟨_, refines⟩ := sampleConfigured_refines
  exact reload_converges refines sampleEnv 0 sampleConfigured_order 9 sampleConfig_accepted
    sampleConfig_disjoint

end WgState

end Titun
