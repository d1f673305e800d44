import Titun.ReloadConvergence

/-! Whether a second reload with the same configuration changes anything. -/
namespace Titun

namespace WgState

variable {HS : Type}

/-- Of the peers that a reload sets up, the last one that lists a prefix. -/
def Wins (wg : WgState HS) (config : Config) (p : PeerConfig) (ip : AllowedIp) : Prop :=
  ¬ Unchanged wg p ∧ p.Lists ip ∧
    ∀ q ∈ config.peers, ¬ Unchanged wg q → q.Lists ip → q = p ∨ Before wg q.publicKey p.publicKey

/-- The status will not show a peer as it is configured: not its endpoint, or not all its prefixes,
because it writes them with host bits or loses them to others. -/
def ShownOtherwise (wg : WgState HS) (config : Config) (p : PeerConfig) : Prop :=
  p.endpoint ≠ endpointAfter wg p ∨ ∃ ip ∈ p.allowedIps, ¬ Wins wg config p ip

/-- A peer loses a prefix to one that a reload sets up, unless it is set up later itself. -/
def Loses (wg : WgState HS) (config : Config) (p : PeerConfig) : Prop :=
  ∃ q ∈ config.peers, ¬ Unchanged wg q ∧ ∃ ip, p.Lists ip ∧ q.Lists ip

/-- The endpoint is stored as it would be if it was set, and the peer does not roam. -/
def PinnedTo (p : PeerState HS) (endpoint : SocketAddr) : Prop :=
  p.info.roaming = false ∧ p.info.endpoint = some (mapIpv4ToIpv6 endpoint)

/-- The configuration has a port, of the peers that share a prefix the one that gets it has the greatest
key and will be set up again, and the endpoints of peers that are skipped and lose a prefix are pinned. -/
structure Settles (wg : WgState HS) (config : Config) : Prop where
  port : config.interface.listenPort.getD 0 ≠ 0
  shared : ∀ p ∈ config.peers, ∀ ip, Wins wg config p ip → (∃ q ∈ config.peers, q ≠ p ∧ q.Lists ip) →
    ShownOtherwise wg config p ∧ ∀ q ∈ config.peers, q.Lists ip → keyNumber q.publicKey ≤ keyNumber p.publicKey
  pinned : ∀ p ∈ config.peers, Loses wg config p → ∀ ref e, wg.pubkeyMap.get p.publicKey = some ref →
    p = shownAs (wg.peers ref) p → p.endpoint = some e → PinnedTo (wg.peers ref) e

/-- Two states agree on the interface, the routes and the peers, with all that belongs to a peer. -/
structure Repeats (first second : WgState HS) : Prop where
  info : second.info = first.info
  owners : ∀ ip, second.rt.get ip = first.rt.get ip
  pubkeyMap : ∀ pk, second.pubkeyMap.get pk = first.pubkeyMap.get pk
  peers : ∀ pk ref, first.pubkeyMap.get pk = some ref → second.peers ref = first.peers ref

def rank (wg : WgState HS) (pk : X25519Pubkey) : ℕ ×ₗ ℕ :=
  toLex (if (wg.pubkeyMap.get pk).isSome then 0 else 1, keyNumber pk)

theorem before_iff {wg : WgState HS} : Before wg a b ↔ rank wg a < rank wg b := by
  rw [rank, rank, Prod.Lex.toLex_lt_toLex, Before]
  cases wg.pubkeyMap.get a <;> cases wg.pubkeyMap.get b <;> simp

theorem rank_injective (wg : WgState HS) : Function.Injective (rank wg) := fun a b same => by
  have second : (ofLex (rank wg a)).2 = (ofLex (rank wg b)).2 := by rw [same]
  exact keyNumber_injective second

theorem exists_wins {wg : WgState HS} {config : Config} (accepted : config.Accepted)
    (isIn : p ∈ config.peers) (changes : ¬ Unchanged wg p) (lists : p.Lists ip) :
    ∃ w ∈ config.peers, Wins wg config w ip := by
  classical
  let listing := (config.peers.filter fun q => ¬ Unchanged wg q ∧ q.Lists ip).toFinset
  have mem (q : PeerConfig) : q ∈ listing ↔ q ∈ config.peers ∧ ¬ Unchanged wg q ∧ q.Lists ip := by
    simp [listing]
  obtain ⟨w, isW, greatest⟩ := listing.exists_max_image (fun q => rank wg q.publicKey)
    ⟨p, (mem p).mpr ⟨isIn, changes, lists⟩⟩
  obtain ⟨isInW, changesW, listsW⟩ := (mem w).mp isW
  refine ⟨w, isInW, changesW, listsW, fun q isInQ changesQ listsQ => ?_⟩
  rcases (greatest q ((mem q).mpr ⟨isInQ, changesQ, listsQ⟩)).lt_or_eq with less | same
  · exact .inr (before_iff.mpr less)
  · exact .inl (accepted.unique isInQ isInW (rank_injective wg same))

theorem UpToIps.eq {p q : PeerState HS} (same : UpToIps p q) (ips : q.info.allowedIps = p.info.allowedIps) : q = p := by
  obtain ⟨allowedIps, rfl⟩ := same
  have ips : allowedIps = p.info.allowedIps := ips
  rw [ips]
  rfl

/-- A command that sets what is there already does nothing but pin the endpoint. -/
theorem setPeerInfo_eq_self_iff (env : Env) {p : PeerState HS} {command : SetPeerCommand}
    (psk : p.info.psk = command.presharedKey)
    (keepalive : ∀ interval, command.keepalive = some interval → p.info.keepalive = NonZeroU16.new interval) :
    (setPeerInfo env p command).2 = p ↔ ∀ e, command.endpoint = some e → PinnedTo p e := by
  have samePsk : setPsk p command.presharedKey = ([], p) := if_neg (not_not.mpr psk)
  have sameKeepalive : setKeepalive (pinEndpoint p command.endpoint) env.now command.keepalive =
      pinEndpoint p command.endpoint := by
    cases isSome : command.keepalive with
    | none => rfl
    | some interval =>
      have kept : (pinEndpoint p command.endpoint).info.keepalive = p.info.keepalive := by
        cases command.endpoint <;> rfl
      have unchanged := kept.trans (keepalive interval isSome)
      exact if_neg (not_not.mpr unchanged)
  have set : (setPeerInfo env p command).2 = pinEndpoint p command.endpoint := by
    rw [setPeerInfo, samePsk]
    exact sameKeepalive
  rw [set]
  cases command.endpoint with
  | none => simp [pinEndpoint]
  | some e =>
    constructor
    · rintro pins _ ⟨⟩
      rw [← pins]
      exact ⟨rfl, rfl⟩
    · intro pinned
      obtain ⟨roaming, endpoint⟩ := pinned e rfl
      rw [pinEndpoint, ← endpoint, ← roaming]

section Owners

variable {wg middle next : WgState HS} {o : Ownership} (refines : Refines wg o) {config : Config}
  (accepted : config.Accepted) (reloaded : Reloaded wg env o config middle next own)

include reloaded in
theorem Reloaded.of_wins (isIn : p ∈ config.peers) (wins : Wins wg config p ip) :
    own ip = some p.publicKey :=
  reloaded.latest p isIn wins.1 ip wins.2.1 wins.2.2

include refines accepted reloaded

theorem Reloaded.owner (owner : own ip = some pk) :
    ∃ p ∈ config.peers, p.publicKey = pk ∧ p.Lists ip ∧ (Wins wg config p ip ∨ Unchanged wg p) := by
  by_cases listed : ∃ p ∈ config.peers, ¬ Unchanged wg p ∧ p.Lists ip
  · obtain ⟨p, isIn, changes, lists⟩ := listed
    obtain ⟨w, isInW, wins⟩ := exists_wins accepted isIn changes lists
    rw [reloaded.of_wins isInW wins, Option.some.injEq] at owner
    exact ⟨w, isInW, owner, wins.2.1, .inl wins⟩
  · have unlisted : ∀ p ∈ config.peers, ¬ Unchanged wg p → ¬ p.Lists ip := fun p isIn changes lists =>
      listed ⟨p, isIn, changes, lists⟩
    obtain ⟨kept, p, isIn, rfl, same⟩ := (reloaded.rest ip unlisted pk).mp owner
    exact ⟨p, isIn, rfl, (same.lists refines).mpr kept, .inr same⟩

theorem Reloaded.owner_iff_wins (isIn : p ∈ config.peers) (changes : ¬ Unchanged wg p) :
    own ip = some p.publicKey ↔ Wins wg config p ip := by
  constructor
  · intro owner
    obtain ⟨q, isIn', same, _, wins | unchanged⟩ := reloaded.owner refines accepted owner
    · exact accepted.unique isIn' isIn same ▸ wins
    · exact absurd (accepted.unique isIn' isIn same ▸ unchanged) changes
  · exact reloaded.of_wins isIn

theorem Reloaded.changes_again (isIn : p ∈ config.peers) (changes : ¬ Unchanged wg p) :
    ¬ Unchanged next p ↔ ShownOtherwise wg config p := by
  have again : Unchanged next p ↔
      p.endpoint = endpointAfter wg p ∧ ∀ ip, ip ∈ p.allowedIps ↔ Wins wg config p ip := by
    obtain ⟨ref, shown⟩ := reloaded.shown isIn
    have iff : Unchanged next p ↔ p = shownAs (next.peers ref) p := by
      constructor
      · rintro ⟨ref', isKey, shows⟩
        rw [shown.isKey, Option.some.injEq] at isKey
        rwa [isKey]
      · exact fun shows => ⟨ref, shown.isKey, shows⟩
    rw [iff, eq_shownAs, shown.publicKey, shown.psk, shown.keepalive, shown.endpoint, Finset.ext_iff]
    simp only [shown.allowedIps, reloaded.owner_iff_wins refines accepted isIn changes, true_and, and_true]
  rw [again, ShownOtherwise, not_and_or]
  refine or_congr_right ⟨fun differs => ?_, ?_⟩
  · by_contra none
    have all : ∀ ip ∈ p.allowedIps, Wins wg config p ip := fun ip isIn' =>
      by_contra fun loses => none ⟨ip, isIn', loses⟩
    refine differs fun ip => ⟨all ip, fun wins => ?_⟩
    obtain ⟨original, isIn', rfl⟩ := Finset.mem_image.mp wins.2.1
    obtain ⟨masked, _, same⟩ := Finset.mem_image.mp (all original isIn').2.1
    rw [← same, maskedIp_maskedIp, same]
    exact isIn'
  · rintro ⟨ip, isIn', loses⟩ same
    exact loses ((same ip).mp isIn')

theorem Reloaded.changes_iff_loses (isIn : p ∈ config.peers) (same : Unchanged wg p) :
    ¬ Unchanged next p ↔ Loses wg config p := by
  constructor
  · intro changes
    by_contra keeps
    have unclaimed {ip : AllowedIp} (lists : p.Lists ip) : ∀ q ∈ config.peers, ¬ Unchanged wg q → ¬ q.Lists ip := by
      intro q isIn' changes claims
      exact keeps ⟨q, isIn', changes, ip, lists, claims⟩
    have ips (ip : AllowedIp) : own ip = some p.publicKey ↔ o.own ip = some p.publicKey := by
      rw [← same.lists refines]
      constructor
      · intro owner
        obtain ⟨q, isIn', isKey, lists, _⟩ := reloaded.owner refines accepted owner
        exact accepted.unique isIn' isIn isKey ▸ lists
      · intro lists
        exact (reloaded.rest ip (unclaimed lists) _).mpr ⟨(same.lists refines).mp lists, p, isIn, rfl, same⟩
    obtain ⟨ref, isKey, shows⟩ := same
    obtain ⟨isNext, peer⟩ := reloaded.unchanged p isIn ref isKey shows
    have kept : next.peers ref = middle.peers ref := by
      apply peer.eq
      ext ip
      rw [reloaded.refines.allowed _ ref isNext, reloaded.rekeys.peerInfo, refines.allowed _ ref isKey]
      exact ips ip
    refine changes ⟨ref, isNext, ?_⟩
    rw [eq_shownAs] at shows ⊢
    rwa [kept, reloaded.rekeys.peerInfo]
  · rintro ⟨q, isIn', changes, ip, lists, claims⟩ unchanged
    have owner : own ip = some p.publicKey := (unchanged.lists reloaded.refines).mp lists
    obtain ⟨w, isInW, wins⟩ := exists_wins accepted isIn' changes claims
    rw [reloaded.of_wins isInW wins, Option.some.injEq] at owner
    exact wins.1 (accepted.unique isInW isIn owner ▸ same)

/-- The next reload changes no endpoint of a peer that is set up now, or was pinned when it was skipped. -/
theorem Reloaded.stays_iff (isIn : p ∈ config.peers) (isNext : next.pubkeyMap.get p.publicKey = some ref) :
    (Unchanged next p ∨ ∀ e, p.endpoint = some e → PinnedTo (next.peers ref) e) ↔
      (Loses wg config p → ∀ ref e, wg.pubkeyMap.get p.publicKey = some ref → p = shownAs (wg.peers ref) p →
        p.endpoint = some e → PinnedTo (wg.peers ref) e) := by
  by_cases same : Unchanged wg p
  · have changes := reloaded.changes_iff_loses refines accepted isIn same
    obtain ⟨ref', isKey, shows⟩ := same
    obtain ⟨isNext', ips, peer⟩ := reloaded.unchanged p isIn ref' isKey shows
    obtain rfl := Option.some.inj (isNext.symm.trans isNext')
    have pinned (e : SocketAddr) : PinnedTo (next.peers ref) e ↔ PinnedTo (wg.peers ref) e := by
      simp only [PinnedTo, peer, PeerState.withAllowedIps, reloaded.rekeys.peerInfo]
    rw [or_iff_not_imp_left, ← changes]
    apply imp_congr_right
    intro _
    constructor
    · intro stays ref' e isKey' _ configured
      obtain rfl := Option.some.inj (isKey.symm.trans isKey')
      exact (pinned e).mp (stays e configured)
    · intro pins e configured
      exact (pinned e).mpr (pins ref e isKey shows configured)
  · refine iff_of_true (.inr ?_) fun _ ref' e isKey shows _ => absurd ⟨ref', isKey, shows⟩ same
    intro e configured
    cases found : wg.pubkeyMap.get p.publicKey with
    | none =>
      obtain ⟨ref', isNext', ips, peer⟩ := reloaded.added p isIn found
      obtain rfl := Option.some.inj (isNext.symm.trans isNext')
      simp [PinnedTo, peer, PeerState.withAllowedIps, setPeerInfo_info, PeerConfig.addition, configured]
    | some ref' =>
      obtain ⟨isNext', ips, peer⟩ := reloaded.modified p isIn ref' found fun shows => same ⟨ref', found, shows⟩
      obtain rfl := Option.some.inj (isNext.symm.trans isNext')
      simp [PinnedTo, peer, PeerState.withAllowedIps, setPeerInfo_info, PeerConfig.modification, configured]

end Owners

section Twice

variable {wg middle first middle' second : WgState HS} {o : Ownership} {config : Config}
  {own own' : AllowedIp → Option X25519Pubkey}

theorem Reloaded.before_iff (reloaded : Reloaded wg env o config middle first own)
    (isIn : p ∈ config.peers) (isIn' : q ∈ config.peers) :
    Before first p.publicKey q.publicKey ↔ keyNumber p.publicKey < keyNumber q.publicKey := by
  obtain ⟨ref, shown⟩ := reloaded.shown isIn
  obtain ⟨ref', shown'⟩ := reloaded.shown isIn'
  simp [Before, shown.isKey, shown'.isKey]

variable (refines : Refines wg o) (accepted : config.Accepted)
  (reloaded : Reloaded wg env o config middle first own)
  (again : Reloaded first env' ⟨config.keys, own⟩ config middle' second own')

include refines accepted reloaded again

/-- Owners stay exactly where the winner of a shared prefix wins again. -/
theorem Reloaded.owners_again :
    own' = own ↔ ∀ p ∈ config.peers, ∀ ip, Wins wg config p ip → (∃ q ∈ config.peers, q ≠ p ∧ q.Lists ip) →
      ShownOtherwise wg config p ∧
        ∀ q ∈ config.peers, q.Lists ip → keyNumber q.publicKey ≤ keyNumber p.publicKey := by
  have loses (p : PeerConfig) (isIn : p ∈ config.peers) (ip : AllowedIp) (wins : Wins wg config p ip)
      (q : PeerConfig) (isIn' : q ∈ config.peers) (apart : q ≠ p) (lists : q.Lists ip) :
      ¬ Unchanged first q := by
    intro same
    have owner : own ip = some q.publicKey := (same.lists reloaded.refines).mp lists
    rw [reloaded.of_wins isIn wins, Option.some.injEq] at owner
    exact apart (accepted.unique isIn' isIn owner.symm)
  constructor
  · rintro rfl p isIn ip wins ⟨q, isIn', apart, lists⟩
    obtain ⟨w, isInW, winsAgain⟩ := exists_wins accepted isIn' (loses p isIn ip wins q isIn' apart lists) lists
    have owner := again.of_wins isInW winsAgain
    rw [reloaded.of_wins isIn wins, Option.some.injEq] at owner
    obtain rfl := accepted.unique isIn isInW owner
    refine ⟨(reloaded.changes_again refines accepted isIn wins.1).mp winsAgain.1, fun r isInR listsR => ?_⟩
    by_cases here : r = p
    · rw [here]
    · have before := winsAgain.2.2 r isInR (loses p isIn ip wins r isInR here listsR) listsR
      exact ((reloaded.before_iff isInR isIn).mp (before.resolve_left here)).le
  · intro shared
    funext ip
    by_cases listed : ∃ p ∈ config.peers, ¬ Unchanged first p ∧ p.Lists ip
    · obtain ⟨p, isIn, changes, lists⟩ := listed
      obtain ⟨w, isInW, winsAgain⟩ := exists_wins accepted isIn changes lists
      rw [again.of_wins isInW winsAgain]
      by_cases claimed : ∃ p ∈ config.peers, ¬ Unchanged wg p ∧ p.Lists ip
      · obtain ⟨p, isIn, changes, lists⟩ := claimed
        obtain ⟨v, isInV, wins⟩ := exists_wins accepted isIn changes lists
        rw [reloaded.of_wins isInV wins]
        by_contra differ
        have apart : w ≠ v := fun same => differ (by rw [same])
        obtain ⟨otherwise, greatest⟩ := shared v isInV ip wins ⟨w, isInW, apart, winsAgain.2.1⟩
        have changes := (reloaded.changes_again refines accepted isInV wins.1).mpr otherwise
        have before := (winsAgain.2.2 v isInV changes wins.2.1).resolve_left (Ne.symm apart)
        have less := (reloaded.before_iff isInV isInW).mp before
        exact absurd less (Nat.not_lt.mpr (greatest w isInW winsAgain.2.1))
      · have unclaimed : ∀ p ∈ config.peers, ¬ Unchanged wg p → ¬ p.Lists ip := fun p isIn changes lists =>
          claimed ⟨p, isIn, changes, lists⟩
        have same : Unchanged wg w := by
          by_contra changes
          exact unclaimed w isInW changes winsAgain.2.1
        exact ((reloaded.rest ip unclaimed _).mpr
          ⟨(same.lists refines).mp winsAgain.2.1, w, isInW, rfl, same⟩).symm
    · have unlisted : ∀ p ∈ config.peers, ¬ Unchanged first p → ¬ p.Lists ip := fun p isIn changes lists =>
        listed ⟨p, isIn, changes, lists⟩
      apply Option.ext
      intro pk
      rw [again.rest ip unlisted]
      constructor
      · exact And.left
      · intro owner
        obtain ⟨p, isIn, isKey, lists, _⟩ := reloaded.owner refines accepted owner
        refine ⟨owner, p, isIn, isKey, ?_⟩
        by_contra changes
        exact unlisted p isIn changes lists

omit refines accepted in
theorem Reloaded.sameMap (pk : X25519Pubkey) : second.pubkeyMap.get pk = first.pubkeyMap.get pk := by
  by_cases configured : pk ∈ config.keys
  · obtain ⟨p, isIn, rfl⟩ := Config.mem_keys.mp configured
    obtain ⟨ref, shown⟩ := reloaded.shown isIn
    rw [shown.isKey]
    by_cases shows : p = shownAs (first.peers ref) p
    · exact (again.unchanged p isIn ref shown.isKey shows).1
    · exact (again.modified p isIn ref shown.isKey shows).1
  · have absent := (reloaded.refines.peers pk).not.mpr configured
    have absentAgain := (again.refines.peers pk).not.mpr configured
    rw [Option.not_isSome_iff_eq_none] at absent absentAgain
    rw [absent, absentAgain]

omit refines accepted in
theorem Reloaded.peer_again (info : first.info.key = config.interface.privateKey) (isIn : p ∈ config.peers)
    (isKey : first.pubkeyMap.get p.publicKey = some ref)
    (owners : ∀ ip, own' ip = some p.publicKey ↔ own ip = some p.publicKey) :
    second.peers ref = first.peers ref ↔
      Unchanged first p ∨ ∀ e, p.endpoint = some e → PinnedTo (first.peers ref) e := by
  obtain ⟨ref', shown⟩ := reloaded.shown isIn
  obtain rfl := Option.some.inj (isKey.symm.trans shown.isKey)
  have isKeyAgain := (reloaded.sameMap again p.publicKey).trans isKey
  have middle_eq : middle'.peers = first.peers := again.rekeys.sameKey info
  have ips : (second.peers ref).info.allowedIps = (first.peers ref).info.allowedIps := by
    ext ip
    rw [again.refines.allowed _ ref isKeyAgain, reloaded.refines.allowed _ ref isKey]
    exact owners ip
  by_cases shows : p = shownAs (first.peers ref) p
  · obtain ⟨_, peer⟩ := again.unchanged p isIn ref isKey shows
    rw [middle_eq] at peer
    exact iff_of_true (peer.eq ips) (.inl ⟨ref, isKey, shows⟩)
  · obtain ⟨_, peer⟩ := again.modified p isIn ref isKey shows
    rw [middle_eq] at peer
    have set : second.peers ref = (setPeerInfo env' (first.peers ref) p.modification).2 := by
      apply peer.eq
      rw [ips, setPeerInfo_info]
    have changes : ¬ Unchanged first p := by
      rintro ⟨ref', isKey', shows'⟩
      obtain rfl := Option.some.inj (isKey.symm.trans isKey')
      exact shows shows'
    rw [set, or_iff_right changes]
    apply setPeerInfo_eq_self_iff env' shown.psk
    intro interval isSome
    rw [shown.keepalive]
    cases configured : p.keepalive with
    | none =>
      rw [PeerConfig.modification, configured] at isSome
      rw [← Option.some.inj isSome]
      rfl
    | some k =>
      rw [PeerConfig.modification, configured] at isSome
      rw [← Option.some.inj isSome]
      have same : NonZeroU16.new k.val = some k := dif_pos k.property
      exact same.symm

/-- What the second reload has to leave alone: the interface, the owners, and the endpoints of peers that
lost a prefix. -/
theorem Reloaded.repeats_iff (info : first.info.key = config.interface.privateKey) :
    Repeats first second ↔ second.info = first.info ∧ own' = own ∧
      ∀ p ∈ config.peers, Loses wg config p → ∀ ref e, wg.pubkeyMap.get p.publicKey = some ref →
        p = shownAs (wg.peers ref) p → p.endpoint = some e → PinnedTo (wg.peers ref) e := by
  have sameMap := reloaded.sameMap again
  constructor
  · intro repeats
    have allowed (pk : X25519Pubkey) (ref : PeerRef) (isKey : first.pubkeyMap.get pk = some ref) (ip : AllowedIp) :
        own' ip = some pk ↔ own ip = some pk := by
      have before := reloaded.refines.allowed pk ref isKey ip
      have after := again.refines.allowed pk ref ((sameMap pk).trans isKey) ip
      rw [repeats.peers pk ref isKey] at after
      exact after.symm.trans before
    refine ⟨repeats.info, ?_, ?_⟩
    · funext ip
      apply Option.ext
      intro pk
      constructor
      · intro owner
        obtain ⟨ref, isKey⟩ := Option.isSome_iff_exists.mp
          ((again.refines.peers pk).mpr (again.refines.owned ip pk owner).1)
        exact (allowed pk ref (sameMap pk ▸ isKey) ip).mp owner
      · intro owner
        obtain ⟨ref, isKey⟩ := Option.isSome_iff_exists.mp
          ((reloaded.refines.peers pk).mpr (reloaded.refines.owned ip pk owner).1)
        exact (allowed pk ref isKey ip).mpr owner
    · intro p isIn
      obtain ⟨ref, shown⟩ := reloaded.shown isIn
      apply (reloaded.stays_iff refines accepted isIn shown.isKey).mp
      exact (reloaded.peer_again again info isIn shown.isKey (allowed _ ref shown.isKey)).mp
        (repeats.peers _ ref shown.isKey)
  · rintro ⟨info', rfl, pinned⟩
    refine ⟨info', ?_, sameMap, ?_⟩
    · intro ip
      rw [again.refines.routes, reloaded.refines.routes]
      exact Option.bind_congr fun pk _ => sameMap pk
    · intro pk ref isKey
      have configured := (reloaded.refines.peers pk).mp (by simp [isKey])
      obtain ⟨p, isIn, rfl⟩ := Config.mem_keys.mp configured
      apply (reloaded.peer_again again info isIn isKey fun _ => Iff.rfl).mpr
      exact (reloaded.stays_iff refines accepted isIn isKey).mpr (pinned p isIn)

end Twice

theorem portAfter_twice {port newPort bound bound' : BitVec 16} (serving : port ≠ 0) (picked : bound ≠ 0)
    (unused : bound' ≠ portAfter port newPort bound) :
    portAfter (portAfter port newPort bound) newPort bound' = portAfter port newPort bound ↔ newPort ≠ 0 := by
  by_cases zero : newPort = 0
  · subst zero
    have first : portAfter port 0 bound = bound := by rw [portAfter, if_neg serving.symm, if_pos rfl]
    have second : portAfter bound 0 bound' = bound' := by rw [portAfter, if_neg picked.symm, if_pos rfl]
    rw [first] at unused ⊢
    rw [second]
    simp [unused]
  · have stays (p b : BitVec 16) : portAfter p newPort b = newPort := by
      unfold portAfter
      split_ifs with same
      · exact same.symm
      · rfl
    rw [stays, stays]
    exact iff_of_true rfl zero

/-- A second reload with the same configuration repeats the first exactly if the configuration
settles. Ports that the system picks are not zero, and not in use. -/
theorem reload_idempotent_iff {wg : WgState HS} {o : Ownership} (refines : Refines wg o) (env : Env)
    (clock : SystemTime) {order : List X25519Pubkey} (all : HashMap.IterOrder wg.pubkeyMap order)
    {bound : BitVec 16} {config : Config} (accepted : config.Accepted) (serving : wg.info.port ≠ 0)
    (picked : bound ≠ 0) :
    ∃ first, wg.reload env clock order ⟨.ok bound, .ok ()⟩ config = .ok (.ok (), first) ∧
      ∀ env' clock' order' bound', HashMap.IterOrder first.pubkeyMap order' → bound' ≠ first.info.port →
        ∃ second, first.reload env' clock' order' ⟨.ok bound', .ok ()⟩ config = .ok (.ok (), second) ∧
          (Repeats first second ↔ Settles wg config) := by
  obtain ⟨middle, first, own, ok, reloaded, info⟩ := refines.reload_spec env clock all bound accepted
  refine ⟨first, ok, fun env' clock' order' bound' all' unused => ?_⟩
  obtain ⟨middle', second, own', ok', again, info'⟩ :=
    reloaded.refines.reload_spec env' clock' all' bound' accepted
  refine ⟨second, ok', ?_⟩
  rw [reloaded.repeats_iff refines accepted again (by rw [info]), reloaded.owners_again refines accepted again]
  have port : second.info = first.info ↔ config.interface.listenPort.getD 0 ≠ 0 := by
    rw [info] at unused
    rw [← portAfter_twice serving picked unused, info', info]
    simp
  rw [port]
  constructor
  · rintro ⟨hasPort, shared, pinned⟩
    exact ⟨hasPort, shared, pinned⟩
  · intro settles
    exact ⟨settles.port, settles.shared, settles.pinned⟩

theorem reload_idempotent_iff_sample :
    ∃ first, sampleConfigured.reload sampleEnv 0 [samplePubkey 1] ⟨.ok 9, .ok ()⟩ sampleConfig =
        .ok (.ok (), first) ∧
      ∀ env' clock' order' bound', HashMap.IterOrder first.pubkeyMap order' → bound' ≠ first.info.port →
        ∃ second, first.reload env' clock' order' ⟨.ok bound', .ok ()⟩ sampleConfig = .ok (.ok (), second) ∧
          (Repeats first second ↔ Settles sampleConfigured sampleConfig) := by
  obtain ⟨_, refines⟩ := sampleConfigured_refines
  exact reload_idempotent_iff refines sampleEnv 0 sampleConfigured_order sampleConfig_accepted
    (by decide +kernel) (by decide)

def sampleShared : Config where
  interface := ⟨zeros 32, some 51820, none⟩
  peers :=
    [⟨samplePubkey 1, none, none, none, {(.v4 0x0a000000, 8)}, none⟩,
      ⟨samplePubkey 2, none, none, none, {(.v4 0x0a000000, 8)}, none⟩]

theorem sampleShared_accepted : sampleShared.Accepted :=
  ⟨⟨[(.v4 0x0a000000, 8)], by decide +kernel⟩, by simp [sampleShared, ValidIp, IpAddr.width]⟩

theorem sampleShared_unsettled : ∃ p ∈ sampleShared.peers,
    Wins sampleConfigured sampleShared p (.v4 0x0a000000, 8) ∧
    (∃ q ∈ sampleShared.peers, q ≠ p ∧ q.Lists (.v4 0x0a000000, 8)) ∧
    ¬ ShownOtherwise sampleConfigured sampleShared p := by
  have known : (sampleConfigured.pubkeyMap.get (samplePubkey 1)).isSome := by
    rw [get_sampleConfigured, if_pos rfl]
    rfl
  have unknown : sampleConfigured.pubkeyMap.get (samplePubkey 2) = none := by
    rw [get_sampleConfigured, if_neg (by decide)]
  have lists : ∀ p ∈ sampleShared.peers, p.Lists (.v4 0x0a000000, 8) := by
    have masked : maskedIp (.v4 0x0a000000, 8) = (.v4 0x0a000000, 8) := by decide +kernel
    intro p isIn
    simp only [sampleShared, List.mem_cons, List.not_mem_nil, or_false] at isIn
    rcases isIn with rfl | rfl <;>
      exact Finset.mem_image.mpr ⟨_, Finset.mem_singleton_self _, masked⟩
  have wins : Wins sampleConfigured sampleShared
      ⟨samplePubkey 2, none, none, none, {(.v4 0x0a000000, 8)}, none⟩ (.v4 0x0a000000, 8) := by
    refine ⟨?_, lists _ (by simp [sampleShared]), fun q isIn _ _ => ?_⟩
    · rintro ⟨ref, isKey, _⟩
      rw [unknown] at isKey
      cases isKey
    · simp only [sampleShared, List.mem_cons, List.not_mem_nil, or_false] at isIn
      rcases isIn with rfl | rfl
      · exact .inr (.inl ⟨known, unknown⟩)
      · exact .inl rfl
  refine ⟨_, by simp [sampleShared], wins, ⟨_, List.mem_cons_self, by decide +kernel, ?_⟩, ?_⟩
  · exact lists _ List.mem_cons_self
  · rintro (endpoint | ⟨ip, isIn, loses⟩)
    · exact endpoint (by simp [endpointAfter, unknown])
    · rw [Finset.mem_singleton] at isIn
      exact loses (isIn ▸ wins)

/-- The second reload takes the prefix away from it again. -/
theorem reload_not_idempotent : ∃ first second,
    sampleConfigured.reload sampleEnv 0 [samplePubkey 1] ⟨.ok 9, .ok ()⟩ sampleShared = .ok (.ok (), first) ∧
    first.reload sampleEnv 0 [samplePubkey 1, samplePubkey 2] ⟨.ok 10, .ok ()⟩ sampleShared =
      .ok (.ok (), second) ∧
    ¬ Repeats first second := by
  obtain ⟨_, refines⟩ := sampleConfigured_refines
  obtain ⟨_, first, own, ok, reloaded, info⟩ :=
    refines.reload_spec sampleEnv 0 sampleConfigured_order 9 sampleShared_accepted
  have order : HashMap.IterOrder first.pubkeyMap [samplePubkey 1, samplePubkey 2] := by
    refine ⟨by decide, fun k => ?_⟩
    rw [reloaded.refines.peers]
    simp [Config.keys, sampleShared]
  obtain ⟨_, second, own', ok', again, _⟩ :=
    reloaded.refines.reload_spec sampleEnv 0 order 10 sampleShared_accepted
  refine ⟨first, second, ok, ok', fun repeats => ?_⟩
  obtain ⟨_, same, _⟩ :=
    (reloaded.repeats_iff refines sampleShared_accepted again (by rw [info])).mp repeats
  obtain ⟨p, isIn, wins, others, settled⟩ := sampleShared_unsettled
  exact settled ((reloaded.owners_again refines sampleShared_accepted again).mp same p isIn _ wins others).1

end WgState

end Titun
