import Titun.SectionEffects

/-! Whatever the tasks do, everything refers to peers that were added, and the routes stay well
formed. -/
namespace Titun

variable {HS : Type} (c : Crypto HS)

namespace WgState

/-- The routes of a state are well formed and lead to peers that were added. -/
structure Sound (wg : WgState HS) : Prop where
  wf : wg.rt.Wf
  routes : ∀ ip ref, wg.rt.get ip = some ref → ref < wg.nextPeer
  canonical : ∀ ref, ∀ ip ∈ (wg.peers ref).info.allowedIps, ValidIp ip ∧ maskedIp ip = ip
  keys : ∀ pk ref, wg.pubkeyMap.get pk = some ref → ref < wg.nextPeer
  ids : ∀ id ref, wg.registry.get id = some ref → ref < wg.nextPeer
  loops : ∀ loop ∈ wg.loops, loop.peer < wg.nextPeer

theorem new_sound (info : WgInfo) (secret : U8Array 32) (mtu : BitVec 32) (now : Instant) :
    Sound (WgState.new info secret mtu now : WgState HS) where
  wf := RoutingTables.new_wf
  routes := by simp [new]
  canonical := by simp [new, PeerState.new]
  keys := by simp [new]
  ids := by simp [new, registry, Registry.get]
  loops := by simp [new]

namespace Sound

variable {wg next : WgState HS}

theorem becomes (sound : wg.Sound) (becomes : Becomes peer p reg wg next)
    (canonical : ∀ ip ∈ p.info.allowedIps, ValidIp ip ∧ maskedIp ip = ip)
    (loops : ∀ loop ∈ next.loops, loop.peer < wg.nextPeer)
    (ids : ∀ id ref, reg.get id = some ref → ref < wg.nextPeer) : next.Sound where
  wf := becomes.rt ▸ sound.wf
  routes := by
    rw [becomes.rt, becomes.nextPeer]
    exact sound.routes
  canonical ref := by
    by_cases here : ref = peer
    · rw [here, becomes.self]
      exact canonical
    · exact fun ip member => sound.canonical ref ip ((becomes.others ref here).allowedIps member)
  keys := by
    rw [becomes.pubkeyMap, becomes.nextPeer]
    exact sound.keys
  ids := by
    rw [becomes.registry, becomes.nextPeer]
    exact ids
  loops := by
    rw [becomes.nextPeer]
    exact loops

theorem changed (sound : wg.Sound) (added : peer < wg.nextPeer) (becomes : Becomes peer p reg wg next)
    (allowedIps : p.info.allowedIps ⊆ (wg.peers peer).info.allowedIps)
    (ids : ∀ id ref, reg.get id = some ref → wg.registry.get id = some ref ∨ ref = peer) : next.Sound := by
  refine sound.becomes becomes (fun ip member => sound.canonical peer ip (allowedIps member))
    (fun loop member => ?_) fun id ref entry => ?_
  · rcases becomes.loops loop member with old | new
    · exact sound.loops loop old
    · exact new ▸ added
  · rcases ids id ref entry with old | new
    · exact sound.ids id ref old
    · exact new ▸ added

theorem quiet (sound : wg.Sound) (added : peer < wg.nextPeer) (quiet : Quiet peer wg next) :
    next.Sound := by
  obtain ⟨p, calm, becomes⟩ := quiet
  exact sound.changed added becomes calm.allowedIps fun _ _ => .inl

end Sound

theorem configure_sound {wg next : WgState HS} (sound : wg.Sound) (added : peer < wg.nextPeer)
    (valid : ∀ ip ∈ command.allowedIps, ValidIp ip) (ok : wg.configure env peer command = .ok next) :
    next.Sound := by
  obtain ⟨q, dropped, _, becomes⟩ := configure_does ok
  obtain ⟨_, allowed⟩ := setPeerInfo_routing env (wg.peers peer) command
  simp only [configure] at ok
  obtain ⟨⟨displaced, rt, allowedIps⟩, routed, ok⟩ := bind_eq_ok.mp ok
  obtain ⟨peers, drops, ok⟩ := bind_eq_ok.mp ok
  have newCanonical : ∀ ip ∈ command.allowedIps.image maskedIp, ValidIp ip ∧ maskedIp ip = ip :=
    fun ip isNew => by
      obtain ⟨original, isIn, rfl⟩ := Finset.mem_image.mp isNew
      exact ⟨maskedIp_valid (valid original isIn), maskedIp_maskedIp original⟩
  have oldCanonical := sound.canonical peer
  rw [← allowed] at oldCanonical
  obtain ⟨idMap, deferred, guards⟩ :=
    dropGuards_eq (wg.setPeerState peer (setPeerInfo env (wg.peers peer) command).2) env
      (setPeerInfo env (wg.peers peer) command).1
  rw [guards] at routed drops
  obtain ⟨displaced', rt', routed', wf, _, _, route⟩ :=
    setRoutes_spec sound.wf peer oldCanonical newCanonical command.replaceAllowedIps
  obtain ⟨rfl, rest⟩ := Prod.mk.inj (Except.ok.inj (routed.symm.trans routed'))
  obtain ⟨rfl, rfl⟩ := Prod.mk.inj rest
  obtain ⟨self, _⟩ := dropDisplaced_calm drops
  obtain rfl := Except.ok.inj ok
  have middle : Sound { wg with rt } :=
    { wf, canonical := sound.canonical, keys := sound.keys, ids := sound.ids, loops := sound.loops
      routes := fun ip ref found => by
        rw [route] at found
        split_ifs at found
        · exact Option.some.inj found ▸ added
        · exact sound.routes ip ref found }
  refine middle.becomes becomes ?_ (fun loop member => ?_) fun id ref entry => ?_
  · have own : q.info.allowedIps = if command.replaceAllowedIps = true then
        command.allowedIps.image maskedIp
      else (setPeerInfo env (wg.peers peer) command).2.info.allowedIps ∪
        command.allowedIps.image maskedIp := by
      rw [← becomes.self]
      refine (congrArg (fun p => p.info.allowedIps) self).trans ?_
      simp [setPeerState]
    rw [own]
    intro ip member
    split_ifs at member
    · exact newCanonical ip member
    · rcases Finset.mem_union.mp member with old | new
      · exact oldCanonical ip old
      · exact newCanonical ip new
  · rcases becomes.loops loop member with old | new
    · exact sound.loops loop old
    · exact new ▸ added
  · exact sound.ids id ref (Registry.get_of_dropAll entry)

theorem detach_sound {wg next : WgState HS} (sound : wg.Sound) (added : peer < wg.nextPeer)
    (ok : wg.detach env peer = .ok next) : next.Sound := by
  have cleared := detach_does ok
  obtain ⟨rt, removed, ok⟩ := bind_eq_ok.mp ok
  have same := SameRouting.clearPeer wg env peer
  rw [same.rt, same.allowedIps] at removed
  obtain ⟨rt', removed', wf, get⟩ := RoutingTables.removeAll_spec sound.wf _
    (canonical_iterAllowedIps.mpr (sound.canonical peer))
  obtain rfl := Except.ok.inj (removed.symm.trans removed')
  obtain rfl := Except.ok.inj ok
  have middle : Sound { wg with rt } :=
    { wf, canonical := sound.canonical, keys := sound.keys, ids := sound.ids, loops := sound.loops
      routes := fun ip ref found => by
        rw [get] at found
        split_ifs at found
        exact sound.routes ip ref found }
  exact middle.changed added cleared (Finset.Subset.refl _) fun id ref entry =>
    .inl (Registry.get_of_dropAll entry)

theorem addPeer_nextPeer (wg : WgState HS) (env : Env) (pk : X25519Pubkey) :
    wg.nextPeer ≤ (wg.addPeer env pk).2.nextPeer := by
  unfold WgState.addPeer
  split_ifs
  · exact le_rfl
  · exact Nat.le_succ _

theorem Sound.addPeer {wg : WgState HS} (sound : wg.Sound) (env : Env) (pk : X25519Pubkey) :
    (wg.addPeer env pk).2.Sound := by
  unfold WgState.addPeer
  split_ifs
  · exact sound
  · refine ⟨sound.wf, fun ip ref found => (sound.routes ip ref found).trans (Nat.lt_succ_self _),
      fun ref => ?_, fun k ref found => ?_, fun id ref found => (sound.ids id ref found).trans (Nat.lt_succ_self _),
      fun loop member => (sound.loops loop member).trans (Nat.lt_succ_self _)⟩
    · by_cases here : ref = wg.nextPeer
      · simp [here, PeerState.new]
      · simpa [here] using sound.canonical ref
    · rw [HashMap.get_insert] at found
      split_ifs at found
      · exact Option.some.inj found ▸ Nat.lt_succ_self _
      · exact (sound.keys k ref found).trans (Nat.lt_succ_self _)

end WgState

namespace Section

/-- The section refers to a peer that was added, and its prefixes are valid. -/
def Grounded (nextPeer : PeerRef) (sec : Section HS) : Prop :=
  (∀ ref, sec.peer? = some ref → ref < nextPeer) ∧
    ∀ command peer, sec = configure command peer → ∀ ip ∈ command.allowedIps, ValidIp ip

theorem Grounded.mono {sec : Section HS} (grounded : sec.Grounded n) (more : n ≤ m) : sec.Grounded m :=
  ⟨fun ref refers => (grounded.1 ref refers).trans_le more, grounded.2⟩

theorem Grounded.of_peer {sec : Section HS} (peer : sec.peer? = some ref) (added : ref < n)
    (other : ∀ command peer, sec ≠ configure command peer) : sec.Grounded n :=
  ⟨fun _ refers => Option.some.inj (peer.symm.trans refers) ▸ added,
    fun command peer same => absurd same (other command peer)⟩

theorem run_sound {sec : Section HS} {wg next : WgState HS} (sound : wg.Sound)
    (grounded : sec.Grounded wg.nextPeer) (ok : sec.run c env wg = .ok (next, more)) :
    next.Sound ∧ wg.nextPeer ≤ next.nextPeer ∧ ∀ sec ∈ more, sec.Grounded next.nextPeer := by
  have does := run_does c ok
  have changed {peer : PeerRef} (added : peer < wg.nextPeer) {p : PeerState HS}
      {reg : Registry WgId PeerRef} (becomes : WgState.Becomes peer p reg wg next)
      (allowedIps : p.info.allowedIps ⊆ (wg.peers peer).info.allowedIps)
      (ids : ∀ id ref, reg.get id = some ref → wg.registry.get id = some ref ∨ ref = peer) :
      next.Sound ∧ wg.nextPeer ≤ next.nextPeer :=
    ⟨sound.changed added becomes allowedIps ids, becomes.nextPeer.ge⟩
  have quiet {peer : PeerRef} (added : peer < wg.nextPeer) (quiet : WgState.Quiet peer wg next) :
      next.Sound ∧ wg.nextPeer ≤ next.nextPeer := by
    obtain ⟨p, calm, becomes⟩ := quiet
    exact changed added becomes calm.allowedIps fun _ _ => .inl
  cases sec with
  | accept p addr r peer =>
    obtain ⟨rfl, ⟨_, calm⟩ | ⟨_, noise, hs, q, evicted, _, establishes, becomes⟩⟩ := does
    · obtain ⟨sound, more⟩ := quiet (grounded.1 peer rfl) calm
      exact ⟨sound, more, by simp⟩
    · obtain ⟨sound, more⟩ := changed (grounded.1 peer rfl) becomes
        (by rw [establishes.info]; exact Finset.Subset.refl _) fun id ref entry =>
          (Registry.get_of_insert entry).imp_left Registry.get_of_dropAll
      exact ⟨sound, more, by simp⟩
  | verify p addr selfId peer =>
    obtain ⟨calm, rfl | ⟨h, peerId, hs, _, _, _, rfl⟩⟩ := does
    · obtain ⟨sound, more⟩ := quiet (grounded.1 peer rfl) calm
      exact ⟨sound, more, by simp⟩
    · obtain ⟨sound, more⟩ := quiet (grounded.1 peer rfl) calm
      have added := (grounded.1 peer rfl).trans_le more
      refine ⟨sound, more, ?_⟩
      simp only [List.mem_cons, List.not_mem_nil, or_false, forall_eq_or_imp, forall_eq]
      exact ⟨.of_peer rfl added (by simp), .of_peer rfl added (by simp)⟩
  | insertId selfId peer =>
    obtain ⟨rfl, becomes⟩ := does
    obtain ⟨sound, more⟩ := changed (grounded.1 peer rfl) becomes (Finset.Subset.refl _)
      fun _ _ => Registry.get_of_insert
    exact ⟨sound, more, by simp⟩
  | finish p addr selfId peerId hs peer =>
    obtain ⟨rfl, h, q, evicted, _, establishes, becomes⟩ := does
    obtain ⟨sound, more⟩ := changed (grounded.1 peer rfl) becomes
      (by rw [establishes.info]; exact Finset.Subset.refl _) fun id ref entry =>
        .inl (Registry.get_of_dropAll entry)
    exact ⟨sound, more, by simp⟩
  | decide p addr selfId peer =>
    obtain ⟨calm, leads⟩ := does
    obtain ⟨sound, more⟩ := quiet (grounded.1 peer rfl) calm
    have added := (grounded.1 peer rfl).trans_le more
    refine ⟨sound, more, fun sec member => ?_⟩
    rcases leads sec member with rfl | ⟨rfl, _⟩ <;> exact .of_peer rfl added (by simp)
  | setEndpoint addr peer =>
    obtain ⟨rfl, _, becomes⟩ := does
    obtain ⟨sound, more⟩ := changed (grounded.1 peer rfl) becomes (Finset.Subset.refl _) fun _ _ => .inl
    exact ⟨sound, more, by simp⟩
  | cookie p peer | doHandshake peer | rearm peer | dropScope peer =>
    obtain ⟨rfl, calm⟩ := does
    obtain ⟨sound, more⟩ := quiet (grounded.1 peer rfl) calm
    exact ⟨sound, more, by simp⟩
  | send packet peer =>
    obtain ⟨calm, leads⟩ := does
    obtain ⟨sound, more⟩ := quiet (grounded.1 peer rfl) calm
    refine ⟨sound, more, fun sec member => ?_⟩
    rw [leads sec member]
    exact .of_peer rfl ((grounded.1 peer rfl).trans_le more) (by simp)
  | keepalive peer =>
    obtain ⟨calm, leads⟩ := does
    obtain ⟨sound, more⟩ := quiet (grounded.1 peer rfl) calm
    refine ⟨sound, more, fun sec member => ?_⟩
    rw [leads sec member]
    exact .of_peer rfl ((grounded.1 peer rfl).trans_le more) (by simp)
  | dropHandshake peer =>
    obtain ⟨rfl, becomes⟩ := does
    obtain ⟨sound, more⟩ := changed (grounded.1 peer rfl) becomes (Finset.Subset.refl _)
      fun id ref entry => .inl (Registry.get_of_dropAll entry)
    exact ⟨sound, more, by simp⟩
  | clear peer =>
    obtain ⟨rfl, cleared, rt⟩ := does
    have becomes : WgState.Becomes peer _ _ wg next := { cleared with rt := rt }
    obtain ⟨sound, more⟩ := changed (grounded.1 peer rfl) becomes (Finset.Subset.refl _)
      fun id ref entry => .inl (Registry.get_of_dropAll entry)
    exact ⟨sound, more, by simp⟩
  | addPeer publicKey =>
    obtain ⟨rfl, rfl⟩ := does
    exact ⟨sound.addPeer env publicKey, WgState.addPeer_nextPeer wg env publicKey, by simp⟩
  | configure command peer =>
    obtain ⟨rfl, q, dropped, _, becomes⟩ := does
    obtain ⟨_, configured, ok⟩ := bind_eq_ok.mp ok
    obtain ⟨rfl, _⟩ := Prod.mk.inj (Except.ok.inj ok)
    exact ⟨WgState.configure_sound sound (grounded.1 peer rfl) (grounded.2 command peer rfl) configured,
      becomes.nextPeer.ge, by simp⟩
  | unlist publicKey =>
    obtain ⟨rfl, _, rfl⟩ | ⟨peer, found, rfl, rfl⟩ := does
    · exact ⟨sound, le_rfl, by simp⟩
    · refine ⟨{ sound with keys := fun pk ref entry => ?_ }, le_rfl, ?_⟩
      · rw [HashMap.get_remove] at entry
        split_ifs at entry
        exact sound.keys pk ref entry
      · simp only [List.mem_singleton, forall_eq]
        exact .of_peer rfl (sound.keys publicKey peer found) (by simp)
  | detach peer =>
    obtain ⟨rfl, cleared⟩ := does
    obtain ⟨_, detached, ok⟩ := bind_eq_ok.mp ok
    obtain ⟨rfl, _⟩ := Prod.mk.inj (Except.ok.inj ok)
    exact ⟨WgState.detach_sound sound (grounded.1 peer rfl) detached, cleared.nextPeer.ge, by simp⟩
  | storeKey key =>
    obtain ⟨rfl, rfl⟩ := does
    exact ⟨{ sound with }, le_rfl, by simp⟩

end Section

theorem Op.begin_sound {op : Op} {wg next : WgState HS} (sound : wg.Sound)
    (valid : ∀ command, op = .config (.setPeer command) → ∀ ip ∈ command.allowedIps, ValidIp ip)
    (timer : ∀ peer kind, op = .timer peer kind → peer < wg.nextPeer)
    (resend : ∀ loop, op = .resend loop → loop.peer < wg.nextPeer)
    (ok : op.begin c env wg = .ok (next, task)) :
    next.Sound ∧ wg.nextPeer ≤ next.nextPeer ∧ ∀ sec ∈ task, sec.Grounded next.nextPeer := by
  have does := begin_does c ok
  have quiet {peer : PeerRef} (added : peer < wg.nextPeer) (quiet : WgState.Quiet peer wg next) :
      next.Sound ∧ wg.nextPeer ≤ next.nextPeer := by
    obtain ⟨p, calm, becomes⟩ := quiet
    exact ⟨sound.changed added becomes calm.allowedIps fun _ _ => .inl, becomes.nextPeer.ge⟩
  have still {nothing : List (Section HS)} (does : nothing = [] ∧ (∃ peer, WgState.Quiet peer wg next) ∧
      ∀ loop ∈ next.loops, loop ∈ wg.loops) :
      next.Sound ∧ wg.nextPeer ≤ next.nextPeer ∧ ∀ sec ∈ nothing, sec.Grounded next.nextPeer := by
    obtain ⟨rfl, ⟨peer, p, calm, becomes⟩, loops⟩ := does
    refine ⟨sound.becomes becomes (fun ip member => sound.canonical peer ip (calm.allowedIps member))
      (fun loop member => sound.loops loop (loops loop member)) sound.ids, becomes.nextPeer.ge, by simp⟩
  cases op with
  | config op =>
    cases op with
    | addPeer publicKey =>
      obtain ⟨rfl, rfl⟩ := does
      exact ⟨sound, le_rfl, by simp [Section.Grounded, Section.peer?]⟩
    | setPeer command =>
      obtain ⟨rfl, rfl | ⟨peer, found, rfl⟩⟩ := does
      · exact ⟨sound, le_rfl, by simp⟩
      · refine ⟨sound, le_rfl, ?_⟩
        simp only [List.mem_singleton, forall_eq]
        refine ⟨fun ref refers => ?_, fun _ _ eq => ?_⟩
        · exact Option.some.inj refers ▸ sound.keys _ peer found
        · obtain ⟨rfl, _⟩ := Section.configure.inj eq
          exact valid command rfl
    | removePeer publicKey =>
      obtain ⟨rfl, rfl⟩ := does
      exact ⟨sound, le_rfl, by simp [Section.Grounded, Section.peer?]⟩
    | removeAllPeers order =>
      obtain ⟨rfl, rfl⟩ := does
      refine ⟨sound, le_rfl, fun sec member => ?_⟩
      obtain ⟨_, _, rfl⟩ := List.mem_map.mp member
      simp [Section.Grounded, Section.peer?]
  | setKey order key =>
    obtain ⟨rfl, rfl⟩ := does
    refine ⟨sound, le_rfl, fun sec member => ?_⟩
    rcases List.mem_append.mp member with clears | stores
    · obtain ⟨peer, listed, rfl⟩ := List.mem_map.mp clears
      obtain ⟨pk, _, found⟩ := List.mem_filterMap.mp listed
      exact .of_peer rfl (sound.keys pk peer found) (by simp)
    · rw [List.mem_singleton.mp stores]
      simp [Section.Grounded, Section.peer?]
  | datagram bytes addr =>
    obtain ⟨⟨loadMonitor, rfl⟩, received⟩ := does
    refine ⟨{ sound with }, le_rfl, ?_⟩
    cases received with
    | nothing => simp
    | accept _ processed found =>
      simp only [List.mem_singleton, forall_eq]
      exact .of_peer rfl (sound.keys _ _ found) (by simp)
    | verify _ _ found | cookie _ found | decide found =>
      simp only [List.mem_singleton, forall_eq]
      exact .of_peer rfl (sound.ids _ _ found) (by simp)
  | packet padded =>
    obtain ⟨rfl, rfl | ⟨padded, dst, peer, found, rfl⟩⟩ := does
    · exact ⟨sound, le_rfl, by simp⟩
    · obtain ⟨n, _, route, _⟩ := (RoutingTables.longestMatch_eq_some sound.wf).mp found
      refine ⟨sound, le_rfl, ?_⟩
      simp only [List.mem_singleton, forall_eq]
      exact .of_peer rfl (sound.routes _ peer route) (by simp)
  | timer peer kind =>
    obtain ⟨calm, rfl | rfl⟩ := does
    · obtain ⟨sound, more⟩ := quiet (timer peer kind rfl) calm
      exact ⟨sound, more, by simp⟩
    · obtain ⟨sound, more⟩ := quiet (timer peer kind rfl) calm
      have added := (timer peer kind rfl).trans_le more
      refine ⟨sound, more, fun sec member => ?_⟩
      cases kind <;> simp only [TimerKind.sections, List.mem_cons, List.not_mem_nil, or_false] at member
      case persistentKeepalive | stopHandshake =>
        rcases member with rfl | rfl <;> exact .of_peer rfl added (by simp)
      all_goals
        rw [member]
        exact .of_peer rfl added (by simp)
  | resend loop =>
    have added := resend loop rfl
    obtain ⟨rfl, ⟨_, reg, becomes, taken⟩ | ⟨_, _, _, q, _, info, _, _, becomes⟩⟩ := does
    · refine ⟨sound.changed added becomes (Finset.Subset.refl _) fun id ref entry => ?_,
        becomes.nextPeer.ge, by simp⟩
      rcases taken with rfl | ⟨_, rfl⟩
      · exact .inl entry
      · exact Registry.get_of_insert (Registry.get_of_dropAll entry)
    · refine ⟨sound.changed added becomes (by rw [info]) fun id ref entry => ?_, becomes.nextPeer.ge, by simp⟩
      exact Registry.get_of_insert (Registry.get_of_dropAll entry)
  | removeDeferred id =>
    obtain ⟨rfl, rfl⟩ := does
    refine ⟨{ sound with ids := fun k ref entry => ?_ }, le_rfl, by simp⟩
    rw [WgState.removeDeferred_registry, Registry.get_settle] at entry
    split_ifs at entry
    exact sound.ids k ref entry
  | setPort newPort prepared | setFwmark newFwmark marked | cancelLoop loop | session peer i task | startRx
  | takeSocket | updateCookieSecret secret | updateMtu mtu => exact still does

namespace Program

/-- Everything refers to peers that were added. -/
structure Sound (s : Program HS) : Prop where
  wg : s.wg.Sound
  tasks : ∀ i, ∀ sec ∈ s.tasks i, sec.Grounded s.wg.nextPeer

theorem Sound.referenced {s : Program HS} (sound : s.Sound) (refers : s.Referenced ref) :
    ref < s.wg.nextPeer := by
  rcases refers with (⟨pk, key⟩ | ⟨id, entry⟩ | ⟨ip, route⟩) | ⟨i, sec, member, peer⟩
  · exact sound.wg.keys pk ref key
  · exact sound.wg.ids id ref entry
  · exact sound.wg.routes ip ref route
  · exact (sound.tasks i sec member).1 ref peer

theorem Step.sound {s next : Program HS} {l : Label} (sound : s.Sound) (step : Step c s l next) :
    next.Sound ∧ s.wg.nextPeer ≤ next.wg.nextPeer := by
  have tasks {wg : WgState HS} {i : Nat} {task : List (Section HS)} (more : s.wg.nextPeer ≤ wg.nextPeer)
      (grounded : ∀ sec ∈ task, sec.Grounded wg.nextPeer) :
      ∀ j, ∀ sec ∈ Function.update s.tasks i task j, sec.Grounded wg.nextPeer := by
    intro j sec member
    by_cases here : j = i
    · rw [here, Function.update_self] at member
      exact grounded sec member
    · rw [Function.update_of_ne here] at member
      exact (sound.tasks j sec member).mono more
  cases step with
  | @start i op env wg task idle enabled ok =>
    have started := Op.begin_sound c sound.wg (fun command same => by
      subst same
      exact enabled) (fun peer kind same => by
      subst same
      exact sound.referenced enabled) (fun loop same => by
      subst same
      exact sound.wg.loops loop enabled.1) ok
    exact ⟨⟨started.1, tasks started.2.1 started.2.2⟩, started.2.1⟩
  | @proceed i sec rest more env wg next free ok =>
    have mine : ∀ sec' ∈ sec :: rest, sec'.Grounded s.wg.nextPeer := next ▸ sound.tasks i
    have ran := Section.run_sound c sound.wg (mine sec List.mem_cons_self) ok
    refine ⟨⟨ran.1, tasks ran.2.1 fun sec' member => ?_⟩, ran.2.1⟩
    rcases List.mem_append.mp member with new | old
    · exact ran.2.2 sec' new
    · exact (mine sec' (List.mem_cons_of_mem _ old)).mono ran.2.1

theorem start_sound (info : WgInfo) (secret : U8Array 32) (mtu : BitVec 32) (now : Instant) :
    Sound (start info secret mtu now : Program HS) :=
  ⟨WgState.new_sound info secret mtu now, by simp [start]⟩

end Program

end Titun
