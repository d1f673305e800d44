import Titun.RoutingTables

/-! Who owns which prefix: one partial map, which configuration operations change, and
which the routing tables and the allowed IPs of all peers agree with. -/
namespace Titun

/-- The peers and, for every masked prefix, the peer that owns it. -/
structure Ownership where
  peers : Finset X25519Pubkey
  own : AllowedIp → Option X25519Pubkey

inductive ConfigOp where
  | addPeer (publicKey : X25519Pubkey)
  | setPeer (command : SetPeerCommand)
  | removePeer (publicKey : X25519Pubkey)
  /-- With the order in which a map is visited. -/
  | removeAllPeers (order : HashMap X25519Pubkey PeerRef → List X25519Pubkey)

/-- Prefix lengths are valid, and an order visits every key once. -/
def ConfigOp.Valid : ConfigOp → Prop
  | setPeer command => ∀ ip ∈ command.allowedIps, ValidIp ip
  | removeAllPeers order => ∀ m, HashMap.IterOrder m (order m)
  | _ => True

namespace Ownership

def empty : Ownership := ⟨∅, fun _ => none⟩

/-- A command gives a peer prefixes, in replace mode instead of those it had. -/
def setPeer (o : Ownership) (command : SetPeerCommand) : Ownership :=
  if command.publicKey ∈ o.peers then
    { o with
      own := fun ip =>
        if ip ∈ command.allowedIps.image maskedIp then some command.publicKey
        else if command.replaceAllowedIps ∧ o.own ip = some command.publicKey then none
        else o.own ip }
  else o

def removePeer (o : Ownership) (pk : X25519Pubkey) : Ownership :=
  ⟨o.peers.erase pk, fun ip => if o.own ip = some pk then none else o.own ip⟩

def apply (o : Ownership) : ConfigOp → Ownership
  | .addPeer pk => { o with peers := insert pk o.peers }
  | .setPeer command => o.setPeer command
  | .removePeer pk => o.removePeer pk
  | .removeAllPeers _ => empty

end Ownership

namespace WgState

variable {HS : Type}

def applyConfig (wg : WgState HS) (env : Env) : ConfigOp → Exec (WgState HS)
  | .addPeer pk => return (wg.addPeer env pk).2
  | .setPeer command => do
    let (_, wg) ← wg.setPeer env command
    return wg
  | .removePeer pk => do
    let (_, wg) ← wg.removePeer env pk
    return wg
  | .removeAllPeers order => wg.removeAllPeers env (order wg.pubkeyMap)

/-- A sequence of configuration operations. -/
def runConfig (wg : WgState HS) : List (Env × ConfigOp) → Exec (WgState HS)
  | [] => return wg
  | (env, op) :: ops => do
    let wg ← wg.applyConfig env op
    wg.runConfig ops

/-- The state agrees with who owns what. -/
structure Refines (wg : WgState HS) (o : Ownership) : Prop where
  wf : wg.rt.Wf
  peers : ∀ pk, (wg.pubkeyMap.get pk).isSome ↔ pk ∈ o.peers
  key : ∀ pk ref, wg.pubkeyMap.get pk = some ref →
    (wg.peers ref).info.publicKey = pk ∧ ref < wg.nextPeer
  owned : ∀ ip pk, o.own ip = some pk → pk ∈ o.peers ∧ ValidIp ip ∧ maskedIp ip = ip
  routes : ∀ ip, wg.rt.get ip = (o.own ip).bind wg.pubkeyMap.get
  allowed : ∀ pk ref, wg.pubkeyMap.get pk = some ref →
    ∀ ip, ip ∈ (wg.peers ref).info.allowedIps ↔ o.own ip = some pk

theorem new_refines (info : WgInfo) (secret : U8Array 32) (mtu : BitVec 32) (now : Instant) :
    Refines (WgState.new info secret mtu now : WgState HS) .empty where
  wf := RoutingTables.new_wf
  peers := by simp [new, Ownership.empty]
  key := by simp [new]
  owned := by simp [Ownership.empty]
  routes := by simp [new, Ownership.empty]
  allowed := by simp [new]

/-- What routing depends on is the same in two states. -/
structure SameRouting (wg next : WgState HS) : Prop where
  rt : next.rt = wg.rt
  pubkeyMap : next.pubkeyMap = wg.pubkeyMap
  nextPeer : next.nextPeer = wg.nextPeer
  publicKey : ∀ ref, (next.peers ref).info.publicKey = (wg.peers ref).info.publicKey
  allowedIps : ∀ ref, (next.peers ref).info.allowedIps = (wg.peers ref).info.allowedIps

theorem SameRouting.refl (wg : WgState HS) : SameRouting wg wg :=
  ⟨rfl, rfl, rfl, fun _ => rfl, fun _ => rfl⟩

theorem SameRouting.trans {wg middle next : WgState HS} (first : SameRouting wg middle)
    (second : SameRouting middle next) : SameRouting wg next where
  rt := second.rt.trans first.rt
  pubkeyMap := second.pubkeyMap.trans first.pubkeyMap
  nextPeer := second.nextPeer.trans first.nextPeer
  publicKey := fun ref => (second.publicKey ref).trans (first.publicKey ref)
  allowedIps := fun ref => (second.allowedIps ref).trans (first.allowedIps ref)

theorem Refines.frame {wg next : WgState HS} {o : Ownership} (refines : Refines wg o)
    (same : SameRouting wg next) : Refines next o where
  wf := same.rt ▸ refines.wf
  peers := same.pubkeyMap ▸ refines.peers
  key := by
    rw [same.pubkeyMap, same.nextPeer]
    intro pk ref found
    rw [same.publicKey]
    exact refines.key pk ref found
  owned := refines.owned
  routes := by
    rw [same.rt, same.pubkeyMap]
    exact refines.routes
  allowed := by
    rw [same.pubkeyMap]
    intro pk ref found
    rw [same.allowedIps]
    exact refines.allowed pk ref found

theorem dropGuards_eq (wg : WgState HS) (env : Env) (ids : List WgId) :
    ∃ idMap deferred, wg.dropGuards env ids = { wg with idMap, deferred } := by
  induction ids generalizing wg with
  | nil => exact ⟨wg.idMap, wg.deferred, rfl⟩
  | cons id ids ih =>
    obtain ⟨idMap, deferred, eq⟩ := ih (wg.dropGuard env id)
    refine ⟨idMap, deferred, ?_⟩
    change (wg.dropGuard env id).dropGuards env ids = _
    rw [eq, dropGuard]
    split_ifs <;> rfl

theorem SameRouting.dropGuards (wg : WgState HS) (env : Env) (ids : List WgId) :
    SameRouting wg (wg.dropGuards env ids) := by
  obtain ⟨idMap, deferred, eq⟩ := dropGuards_eq wg env ids
  rw [eq]
  exact ⟨rfl, rfl, rfl, fun _ => rfl, fun _ => rfl⟩

theorem SameRouting.setPeerState {wg : WgState HS} {ref : PeerRef} {p : PeerState HS}
    (publicKey : p.info.publicKey = (wg.peers ref).info.publicKey)
    (allowedIps : p.info.allowedIps = (wg.peers ref).info.allowedIps) :
    SameRouting wg (wg.setPeerState ref p) where
  rt := rfl
  pubkeyMap := rfl
  nextPeer := rfl
  publicKey other := by
    by_cases here : other = ref
    · subst here
      simp [WgState.setPeerState, publicKey]
    · simp [WgState.setPeerState, here]
  allowedIps other := by
    by_cases here : other = ref
    · subst here
      simp [WgState.setPeerState, allowedIps]
    · simp [WgState.setPeerState, here]

theorem SameRouting.clearPeer (wg : WgState HS) (env : Env) (ref : PeerRef) :
    SameRouting wg (wg.clearPeer env ref) :=
  (SameRouting.setPeerState (p := (wg.peers ref).clear.2) rfl rfl).trans (.dropGuards _ env _)

namespace Refines

variable {wg : WgState HS} {o : Ownership} (refines : Refines wg o)

include refines

theorem injective (one : wg.pubkeyMap.get pk = some ref) (two : wg.pubkeyMap.get pk' = some ref) :
    pk = pk' := (refines.key pk ref one).1.symm.trans (refines.key pk' ref two).1

theorem owner_of_route (route : wg.rt.get ip = some ref) :
    ∃ pk, o.own ip = some pk ∧ wg.pubkeyMap.get pk = some ref :=
  Option.bind_eq_some_iff.mp ((refines.routes ip).symm.trans route)

theorem route_of_owner (found : wg.pubkeyMap.get pk = some ref) (owner : o.own ip = some pk) :
    wg.rt.get ip = some ref := by
  rw [refines.routes, owner]
  exact found

theorem addPeer (env : Env) (pk : X25519Pubkey) :
    Refines (wg.addPeer env pk).2 (o.apply (.addPeer pk)) := by
  by_cases known : (wg.pubkeyMap.get pk).isSome
  · have present : insert pk o.peers = o.peers :=
      Finset.insert_eq_self.mpr ((refines.peers pk).mp known)
    simpa [WgState.addPeer, known, Ownership.apply, present] using refines
  · have unowned : ∀ ip, o.own ip ≠ some pk := fun ip owner =>
      known ((refines.peers pk).mpr (refines.owned ip pk owner).1)
    have next : (wg.addPeer env pk).2 = { wg with
        peers := Function.update wg.peers wg.nextPeer (.new pk env.now)
        nextPeer := wg.nextPeer + 1
        pubkeyMap := wg.pubkeyMap.insert pk wg.nextPeer } := by
      simp [WgState.addPeer, known]
    have old : ∀ pk' ref, wg.pubkeyMap.get pk' = some ref → ref ≠ wg.nextPeer := fun pk' ref found =>
      Nat.ne_of_lt (refines.key pk' ref found).2
    rw [next]
    refine ⟨refines.wf, fun pk' => ?_, fun pk' ref found => ?_, fun ip pk' owner => ?_, fun ip => ?_,
      fun pk' ref found ip => ?_⟩
    · rw [HashMap.get_insert]
      by_cases here : pk' = pk
      · simp [here, Ownership.apply]
      · simp [here, Ownership.apply, refines.peers]
    · rw [HashMap.get_insert] at found
      by_cases here : pk' = pk
      · obtain rfl : wg.nextPeer = ref := by simpa [here] using found
        simp [here, PeerState.new]
      · rw [if_neg here] at found
        obtain ⟨isKey, below⟩ := refines.key pk' ref found
        simp only [Function.update_of_ne (old pk' ref found)]
        exact ⟨isKey, Nat.lt_succ_of_lt below⟩
    · obtain ⟨member, canonical⟩ := refines.owned ip pk' owner
      exact ⟨Finset.mem_insert_of_mem member, canonical⟩
    · refine (refines.routes ip).trans (Option.bind_congr fun pk' owner => ?_)
      rw [HashMap.get_insert, if_neg]
      rintro rfl
      exact unowned ip owner
    · rw [HashMap.get_insert] at found
      by_cases here : pk' = pk
      · obtain rfl : wg.nextPeer = ref := by simpa [here] using found
        rw [here]
        simpa [PeerState.new, Ownership.apply] using unowned ip
      · rw [if_neg here] at found
        simp only [Function.update_of_ne (old pk' ref found)]
        exact refines.allowed pk' ref found ip

theorem canonical (found : wg.pubkeyMap.get pk = some ref) :
    ∀ ip ∈ (wg.peers ref).info.allowedIps, ValidIp ip ∧ maskedIp ip = ip := fun ip member =>
  (refines.owned ip pk ((refines.allowed pk ref found ip).mp member)).2

theorem removePeer (env : Env) (pk : X25519Pubkey) :
    ∃ removed next, wg.removePeer env pk = .ok (removed, next) ∧ Refines next (o.removePeer pk) ∧
      ∀ k, next.pubkeyMap.get k = if k = pk then none else wg.pubkeyMap.get k := by
  cases found : wg.pubkeyMap.get pk with
  | none =>
    have absent : pk ∉ o.peers := fun member => by
      simpa [found] using (refines.peers pk).mpr member
    have unchanged : o.removePeer pk = o := by
      have own : (fun ip => if o.own ip = some pk then none else o.own ip) = o.own :=
        funext fun ip => if_neg fun owner => absent (refines.owned ip pk owner).1
      rw [Ownership.removePeer, own, Finset.erase_eq_of_notMem absent]
    refine ⟨false, wg, by simp [WgState.removePeer, found], unchanged.symm ▸ refines, fun k => ?_⟩
    by_cases here : k = pk <;> simp [here, found]
  | some ref =>
    have same := SameRouting.clearPeer { wg with pubkeyMap := wg.pubkeyMap.remove pk } env ref
    generalize cleared : WgState.clearPeer { wg with pubkeyMap := wg.pubkeyMap.remove pk } env ref = middle
      at same
    have wf : middle.rt.Wf := same.rt ▸ refines.wf
    obtain ⟨rt, removed, nextWf, nextGet⟩ := RoutingTables.removeAll_spec wf
      (iterAllowedIps (middle.peers ref).info.allowedIps)
      (canonical_iterAllowedIps.mpr (same.allowedIps ref ▸ refines.canonical found))
    have route (ip : AllowedIp) : rt.get ip = if o.own ip = some pk then none else wg.rt.get ip := by
      simp only [nextGet, mem_iterAllowedIps, same.allowedIps, refines.allowed pk ref found, same.rt]
    have map (k : X25519Pubkey) :
        middle.pubkeyMap.get k = if k = pk then none else wg.pubkeyMap.get k := by
      rw [same.pubkeyMap, HashMap.get_remove]
    refine ⟨true, { middle with rt }, by simp [WgState.removePeer, WgState.detach, found, cleared, removed],
      ⟨nextWf, fun k => ?_, fun k other isIn => ?_, fun ip k owner => ?_, fun ip => ?_,
        fun k other isIn ip => ?_⟩, map⟩
    · rw [map]
      by_cases here : k = pk <;> simp [here, Ownership.removePeer, refines.peers]
    · rw [map] at isIn
      by_cases here : k = pk
      · simp [here] at isIn
      · rw [if_neg here] at isIn
        simpa [same.publicKey, same.nextPeer] using refines.key k other isIn
    · have kept : o.own ip ≠ some pk ∧ o.own ip = some k := by
        simpa [Ownership.removePeer, ite_eq_iff] using owner
      obtain ⟨member, canonical⟩ := refines.owned ip k kept.2
      exact ⟨Finset.mem_erase.mpr ⟨fun same => kept.1 (same ▸ kept.2), member⟩, canonical⟩
    · simp only [route, Ownership.removePeer]
      split_ifs with mine
      · rfl
      · refine (refines.routes ip).trans (Option.bind_congr fun k owner => ?_)
        rw [map, if_neg]
        rintro rfl
        exact mine owner
    · rw [map] at isIn
      by_cases here : k = pk
      · simp [here] at isIn
      · rw [if_neg here] at isIn
        simp only [same.allowedIps, refines.allowed k other isIn, Ownership.removePeer]
        split_ifs with mine
        · simp [mine, Ne.symm here]
        · rfl

theorem removeAllPeers (env : Env) {order : List X25519Pubkey} (all : ∀ pk ∈ o.peers, pk ∈ order) :
    ∃ next, wg.removeAllPeers env order = .ok next ∧ Refines next .empty := by
  induction order generalizing wg o with
  | nil =>
    have none : o = .empty := by
      obtain ⟨peers, own⟩ := o
      obtain rfl : peers = ∅ := Finset.eq_empty_iff_forall_notMem.mpr fun pk member => by
        cases all pk member
      have unowned : own = fun _ => Option.none := funext fun ip => by
        cases owner : own ip with
        | none => rfl
        | some pk => exact absurd (refines.owned ip pk owner).1 (Finset.notMem_empty pk)
      rw [unowned]
      rfl
    exact ⟨wg, rfl, none ▸ refines⟩
  | cons pk order ih =>
    obtain ⟨removed, next, ok, nextRefines, _⟩ := refines.removePeer env pk
    obtain ⟨last, rest, lastRefines⟩ := ih nextRefines fun k member => by
      obtain ⟨apart, member⟩ := Finset.mem_erase.mp member
      exact (List.mem_cons.mp (all k member)).resolve_left apart
    exact ⟨last, by simp [WgState.removeAllPeers, ok, rest], lastRefines⟩

end Refines

theorem pinEndpoint_eq (p : PeerState HS) (e : Option SocketAddr) :
    ∃ endpoint roaming, pinEndpoint p e = { p with info := { p.info with endpoint, roaming } } ∧
      (e = none → endpoint = p.info.endpoint ∧ roaming = p.info.roaming) := by
  cases e with
  | none => exact ⟨_, _, rfl, fun _ => ⟨rfl, rfl⟩⟩
  | some e => exact ⟨_, _, rfl, fun none => by cases none⟩

theorem setKeepalive_eq (p : PeerState HS) (now : Instant) (k : Option (BitVec 16)) :
    ∃ keepalive persistentKeepalive,
      setKeepalive p now k = { p with info := { p.info with keepalive }, persistentKeepalive } ∧
      (k = none → keepalive = p.info.keepalive) := by
  cases k with
  | none => exact ⟨p.info.keepalive, p.persistentKeepalive, rfl, fun _ => rfl⟩
  | some interval =>
    by_cases changed : p.info.keepalive ≠ NonZeroU16.new interval
    · exact ⟨_, _, by rw [setKeepalive, if_pos changed], fun none => by cases none⟩
    · refine ⟨p.info.keepalive, p.persistentKeepalive, ?_, fun none => by cases none⟩
      rw [setKeepalive, if_neg changed]

/-- The attributes that `set_peer` sets first: those that the command leaves out stay, but for
the pre-shared key. -/
theorem setPeerInfo_eq (env : Env) (p : PeerState HS) (command : SetPeerCommand) :
    (setPeerInfo env p command).1 = (setPsk p command.presharedKey).1 ∧
    ∃ endpoint roaming keepalive persistentKeepalive, (setPeerInfo env p command).2 =
        { (setPsk p command.presharedKey).2 with
          info := { p.info with psk := command.presharedKey, endpoint, roaming, keepalive }
          persistentKeepalive } ∧
      (command.endpoint = none → endpoint = p.info.endpoint ∧ roaming = p.info.roaming) ∧
      (command.keepalive = none → keepalive = p.info.keepalive) := by
  have info : (setPsk p command.presharedKey).2.info = { p.info with psk := command.presharedKey } := by
    unfold setPsk
    split_ifs with changed
    · rfl
    · simp [← not_not.mp changed]
  obtain ⟨endpoint, roaming, pinned, unpinned⟩ :=
    pinEndpoint_eq (setPsk p command.presharedKey).2 command.endpoint
  obtain ⟨keepalive, persistentKeepalive, set, unset⟩ :=
    setKeepalive_eq (pinEndpoint (setPsk p command.presharedKey).2 command.endpoint) env.now
      command.keepalive
  refine ⟨rfl, endpoint, roaming, keepalive, persistentKeepalive, ?_, ?_, fun none => ?_⟩
  · refine set.trans ?_
    rw [pinned, info]
  · simpa only [info] using unpinned
  · rw [unset none, pinned, info]

theorem setPeerInfo_routing (env : Env) (p : PeerState HS) (command : SetPeerCommand) :
    (setPeerInfo env p command).2.info.publicKey = p.info.publicKey ∧
      (setPeerInfo env p command).2.info.allowedIps = p.info.allowedIps := by
  obtain ⟨_, _, _, _, _, info, _⟩ := setPeerInfo_eq env p command
  rw [info]
  exact ⟨rfl, rfl⟩

/-- What `set_peer` does to the peers and to the routes, with the prefixes it takes from others. -/
structure Configures (wg : WgState HS) (env : Env) (peer0 : PeerRef) (command : SetPeerCommand)
    (displaced : List (PeerRef × AllowedIp)) (next : WgState HS) : Prop where
  wf : next.rt.Wf
  pubkeyMap : next.pubkeyMap = wg.pubkeyMap
  nextPeer : next.nextPeer = wg.nextPeer
  taken : ∀ ref ip, (ref, ip) ∈ displaced ↔ ip ∈ command.allowedIps.image maskedIp ∧
    ip ∉ (wg.peers peer0).info.allowedIps ∧ wg.rt.get ip = some ref
  losers : ∀ ip, (peer0, ip) ∉ displaced
  routes : ∀ ip, next.rt.get ip =
    if ip ∈ command.allowedIps.image maskedIp ∧ ip ∉ (wg.peers peer0).info.allowedIps then some peer0
    else if command.replaceAllowedIps ∧ ip ∈ (wg.peers peer0).info.allowedIps ∧
      ip ∉ command.allowedIps.image maskedIp then none
    else wg.rt.get ip
  own : next.peers peer0 = (setPeerInfo env (wg.peers peer0) command).2.withAllowedIps
    (if command.replaceAllowedIps then command.allowedIps.image maskedIp
      else (wg.peers peer0).info.allowedIps ∪ command.allowedIps.image maskedIp)
  others : ∀ ref, ref ≠ peer0 → next.peers ref = (wg.peers ref).withAllowedIps
    ((wg.peers ref).info.allowedIps.filter fun ip => (ref, ip) ∉ displaced)

theorem Refines.configure {wg : WgState HS} {o : Ownership} (refines : Refines wg o) (env : Env)
    {command : SetPeerCommand} (valid : ∀ ip ∈ command.allowedIps, ValidIp ip)
    (found : wg.pubkeyMap.get command.publicKey = some peer0) :
    ∃ displaced next, wg.configure env peer0 command = .ok next ∧
      Configures wg env peer0 command displaced next := by
  obtain ⟨publicKey, allowedIps⟩ := setPeerInfo_routing env (wg.peers peer0) command
  obtain ⟨idMap, deferred, guards⟩ := dropGuards_eq
    (wg.setPeerState peer0 (setPeerInfo env (wg.peers peer0) command).2) env
    (setPeerInfo env (wg.peers peer0) command).1
  let new := command.allowedIps.image maskedIp
  have newCanonical : ∀ ip ∈ new, ValidIp ip ∧ maskedIp ip = ip := fun ip isNew => by
    obtain ⟨original, isIn, rfl⟩ := Finset.mem_image.mp isNew
    exact ⟨maskedIp_valid (valid original isIn), maskedIp_maskedIp original⟩
  have old : ∀ ip, ip ∈ (wg.peers peer0).info.allowedIps ↔ o.own ip = some command.publicKey :=
    refines.allowed _ peer0 found
  obtain ⟨displaced, rt, routed, nextWf, mem_displaced, distinct, route⟩ :=
    setRoutes_spec refines.wf peer0 (refines.canonical found) newCanonical command.replaceAllowedIps
  have loser {owner : PeerRef} {ip : AllowedIp} (isIn : (owner, ip) ∈ displaced) :
      owner ≠ peer0 ∧ ∃ pk, o.own ip = some pk ∧ wg.pubkeyMap.get pk = some owner := by
    obtain ⟨_, unowned, owns⟩ := (mem_displaced owner ip).mp isIn
    obtain ⟨pk, owner_eq, isKey⟩ := refines.owner_of_route owns
    refine ⟨?_, pk, owner_eq, isKey⟩
    rintro rfl
    exact unowned ((old ip).mpr (refines.injective isKey found ▸ owner_eq))
  let allowed := if command.replaceAllowedIps then new else (wg.peers peer0).info.allowedIps ∪ new
  let peers := Function.update wg.peers peer0
    ((setPeerInfo env (wg.peers peer0) command).2.withAllowedIps allowed)
  have dropped := dropDisplaced_spec peer0 peers distinct
    (fun x isIn => (loser isIn).1) (fun x isIn => by
      obtain ⟨apart, pk, owner_eq, isKey⟩ := loser isIn
      simp only [peers, Function.update_of_ne apart]
      exact (refines.allowed pk x.1 isKey x.2).mpr owner_eq)
  have self : ∀ ip, (peer0, ip) ∉ displaced := fun ip isIn => (loser isIn).1 rfl
  refine ⟨displaced, { wg with
    rt, idMap, deferred, peers := fun ref => (peers ref).withAllowedIps
      ((peers ref).info.allowedIps.filter fun ip => (ref, ip) ∉ displaced) }, ?_,
    { wf := nextWf
      pubkeyMap := rfl
      nextPeer := rfl
      taken := mem_displaced
      losers := self
      routes := route
      own := ?_
      others := fun ref other => ?_ }⟩
  · simp only [WgState.configure, guards, allowedIps]
    simp only [setPeerState, Function.update_idem]
    exact bind_eq_ok.mpr ⟨_, routed, bind_eq_ok.mpr ⟨_, dropped, rfl⟩⟩
  · simp only [peers, Function.update_self, PeerState.withAllowedIps, self, not_false_eq_true,
      Finset.filter_true]
    rfl
  · simp only [peers, Function.update_of_ne other]

theorem Refines.setPeer {wg : WgState HS} {o : Ownership} (refines : Refines wg o) (env : Env)
    {command : SetPeerCommand} (valid : ∀ ip ∈ command.allowedIps, ValidIp ip) :
    ∃ result next, wg.setPeer env command = .ok (result, next) ∧ Refines next (o.setPeer command) := by
  cases found : wg.pubkeyMap.get command.publicKey with
  | none =>
    have absent : command.publicKey ∉ o.peers := fun member => by
      simpa [found] using (refines.peers command.publicKey).mpr member
    refine ⟨.error "Peer not found", wg, by simp [WgState.setPeer, findPeerByPubkey, found], ?_⟩
    rwa [Ownership.setPeer, if_neg absent]
  | some peer0 =>
    have member : command.publicKey ∈ o.peers := (refines.peers _).mp (by simp [found])
    obtain ⟨displaced, next, ok, configures⟩ := refines.configure env valid found
    obtain ⟨publicKey, _⟩ := setPeerInfo_routing env (wg.peers peer0) command
    have newCanonical : ∀ ip ∈ command.allowedIps.image maskedIp, ValidIp ip ∧ maskedIp ip = ip :=
      fun ip isNew => by
        obtain ⟨original, isIn, rfl⟩ := Finset.mem_image.mp isNew
        exact ⟨maskedIp_valid (valid original isIn), maskedIp_maskedIp original⟩
    have old : ∀ ip, ip ∈ (wg.peers peer0).info.allowedIps ↔ o.own ip = some command.publicKey :=
      refines.allowed _ peer0 found
    have publicKeys (ref : PeerRef) : (next.peers ref).info.publicKey = (wg.peers ref).info.publicKey := by
      by_cases here : ref = peer0
      · subst here
        rw [configures.own]
        exact publicKey
      · rw [configures.others ref here]
        rfl
    have own (ip : AllowedIp) : (o.setPeer command).own ip =
        if ip ∈ command.allowedIps.image maskedIp then some command.publicKey
        else if command.replaceAllowedIps ∧ o.own ip = some command.publicKey then none
        else o.own ip := by
      rw [Ownership.setPeer, if_pos member]
    have samePeers : (o.setPeer command).peers = o.peers := by
      rw [Ownership.setPeer, if_pos member]
    refine ⟨.ok (), next, by simp [WgState.setPeer, findPeerByPubkey, found, ok],
      configures.wf, fun k => ?_, fun k ref isKey => ?_, fun ip k owner => ?_, fun ip => ?_,
      fun k ref isKey ip => ?_⟩
    · rw [configures.pubkeyMap, samePeers]
      exact refines.peers k
    · rw [configures.pubkeyMap] at isKey
      rw [publicKeys, configures.nextPeer]
      exact refines.key k ref isKey
    · rw [own] at owner
      rw [samePeers]
      split_ifs at owner with isNew leaves
      · exact ⟨Option.some.inj owner ▸ member, newCanonical ip isNew⟩
      · exact refines.owned ip k owner
    · simp only [configures.routes, own, old, configures.pubkeyMap]
      by_cases isNew : ip ∈ command.allowedIps.image maskedIp
      · by_cases mine : o.own ip = some command.publicKey
        · simp only [isNew, mine, refines.routes]
          simp [found]
        · simp only [isNew, mine]
          simp [found]
      · by_cases mine : o.own ip = some command.publicKey
        · cases replace : command.replaceAllowedIps <;> simp only [isNew, mine, refines.routes] <;> simp
        · simp only [isNew, mine, refines.routes]
          simp
    · rw [configures.pubkeyMap] at isKey
      by_cases here : ref = peer0
      · subst here
        obtain rfl := refines.injective isKey found
        rw [configures.own, own]
        by_cases isNew : ip ∈ command.allowedIps.image maskedIp
        · rw [if_pos isNew]
          cases replace : command.replaceAllowedIps <;> simp [PeerState.withAllowedIps, isNew]
        · rw [if_neg isNew]
          cases replace : command.replaceAllowedIps <;> simp [PeerState.withAllowedIps, isNew, old]
      · have apart : k ≠ command.publicKey := fun isSame => by
          rw [isSame, found] at isKey
          exact here (Option.some.inj isKey).symm
        rw [configures.others ref here, own]
        simp only [PeerState.withAllowedIps, Finset.mem_filter, refines.allowed k ref isKey]
        by_cases isNew : ip ∈ command.allowedIps.image maskedIp
        · rw [if_pos isNew]
          apply iff_of_false
          · rintro ⟨owner, kept⟩
            refine kept ((configures.taken ref ip).mpr
              ⟨isNew, fun mine => ?_, refines.route_of_owner isKey owner⟩)
            rw [old, owner] at mine
            exact apart (Option.some.inj mine)
          · intro isSame
            exact apart (Option.some.inj isSame).symm
        · have kept : (ref, ip) ∉ displaced := fun isIn => isNew ((configures.taken ref ip).mp isIn).1
          by_cases mine : o.own ip = some command.publicKey
          · simp only [isNew, kept, mine, if_false]
            cases replace : command.replaceAllowedIps <;> simp [Ne.symm apart]
          · simp only [isNew, kept, mine]
            simp

/-- No configuration operation panics, and each does to the state what it does to the
ownership. -/
theorem Refines.applyConfig {wg : WgState HS} {o : Ownership} (refines : Refines wg o) (env : Env)
    {op : ConfigOp} (valid : op.Valid) :
    ∃ next, wg.applyConfig env op = .ok next ∧ Refines next (o.apply op) := by
  cases op with
  | addPeer pk => exact ⟨_, rfl, refines.addPeer env pk⟩
  | setPeer command =>
    obtain ⟨_, next, ok, nextRefines⟩ := refines.setPeer env valid
    exact ⟨next, by simp [WgState.applyConfig, ok], nextRefines⟩
  | removePeer pk =>
    obtain ⟨_, next, ok, nextRefines, _⟩ := refines.removePeer env pk
    exact ⟨next, by simp [WgState.applyConfig, ok], nextRefines⟩
  | removeAllPeers order =>
    exact refines.removeAllPeers env fun pk member =>
      ((valid wg.pubkeyMap).2 pk).mpr ((refines.peers pk).mpr member)

theorem Refines.runConfig {wg : WgState HS} {o : Ownership} (refines : Refines wg o)
    {ops : List (Env × ConfigOp)} (valid : ∀ x ∈ ops, x.2.Valid) :
    ∃ last, wg.runConfig ops = .ok last ∧ Refines last ((ops.map Prod.snd).foldl .apply o) := by
  induction ops generalizing wg o with
  | nil => exact ⟨wg, rfl, refines⟩
  | cons head rest ih =>
    obtain ⟨next, ok, nextRefines⟩ := refines.applyConfig head.1 (valid head List.mem_cons_self)
    obtain ⟨last, restOk, lastRefines⟩ :=
      ih nextRefines fun x member => valid x (List.mem_cons_of_mem _ member)
    exact ⟨last, by simp [WgState.runConfig, ok, restOk], lastRefines⟩

/-- Route ownership. After any sequence of configuration operations, none of which panics,
the routing tables hold the bindings of the ownership and no others, every peer's allowed
IPs are what it owns, and every route leads to a peer that was not removed. -/
theorem route_ownership (info : WgInfo) (secret : U8Array 32) (mtu : BitVec 32) (now : Instant)
    (ops : List (Env × ConfigOp)) (valid : ∀ x ∈ ops, x.2.Valid) :
    let o := (ops.map Prod.snd).foldl Ownership.apply .empty
    ∃ wg, (WgState.new info secret mtu now : WgState HS).runConfig ops = .ok wg ∧
      (∀ pk, (wg.pubkeyMap.get pk).isSome ↔ pk ∈ o.peers) ∧
      (∀ ip pk, o.own ip = some pk → pk ∈ o.peers ∧ maskedIp ip = ip) ∧
      (∀ ip, wg.rt.get ip = (o.own ip).bind wg.pubkeyMap.get) ∧
      (∀ pk ref, wg.pubkeyMap.get pk = some ref → (wg.peers ref).info.publicKey = pk ∧
        ∀ ip, ip ∈ (wg.peers ref).info.allowedIps ↔ o.own ip = some pk) ∧
      ∀ ip ref, wg.rt.get ip = some ref → ∃ pk, wg.pubkeyMap.get pk = some ref := by
  have start : Refines (WgState.new info secret mtu now : WgState HS) .empty := new_refines ..
  obtain ⟨wg, ok, refines⟩ := start.runConfig valid
  refine ⟨wg, ok, refines.peers, fun ip pk owner => ?_, refines.routes, fun pk ref isKey =>
    ⟨(refines.key pk ref isKey).1, refines.allowed pk ref isKey⟩, fun ip ref route => ?_⟩
  · obtain ⟨member, _, isMasked⟩ := refines.owned ip pk owner
    exact ⟨member, isMasked⟩
  · obtain ⟨pk, _, isKey⟩ := refines.owner_of_route route
    exact ⟨pk, isKey⟩

def sampleCommand (pk : X25519Pubkey) (ip : AllowedIp) : SetPeerCommand :=
  ⟨pk, none, none, none, false, {ip}⟩

def samplePubkey (b : UInt8) : X25519Pubkey := ⟨b :: List.replicate 31 0, rfl⟩

def stealingOps : List (Env × ConfigOp) :=
  [.addPeer (samplePubkey 1), .addPeer (samplePubkey 2),
    .setPeer (sampleCommand (samplePubkey 1) (.v4 0x0a000001, 8)),
    .setPeer (sampleCommand (samplePubkey 2) (.v4 0x0a010203, 8))].map (sampleEnv, ·)

theorem route_ownership_stolen :
    ∃ wg, (WgState.new ⟨zeros 32, 0, 0⟩ (zeros 32) 1280 0 : WgState X25519Key).runConfig stealingOps =
        .ok wg ∧
      wg.rt.get (.v4 0x0a000000, 8) = wg.pubkeyMap.get (samplePubkey 2) := by
  have valid : ∀ x ∈ stealingOps, x.2.Valid := by
    simp [stealingOps, ConfigOp.Valid, sampleCommand, ValidIp, IpAddr.width]
  obtain ⟨wg, ok, _, _, routes, _⟩ := route_ownership ⟨zeros 32, 0, 0⟩ (zeros 32) 1280 0 stealingOps valid
  refine ⟨wg, ok, ?_⟩
  rw [routes]
  rfl

end WgState

end Titun
